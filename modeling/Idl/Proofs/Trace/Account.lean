/-
Idl/Proofs/Trace/Account.lean

What a part of a syntax tree says about the way it was parsed.

An `Account` lists what a part of a tree took to parse: its identifiers, its literals, what
happened to names on the way, and where something is missing.  `Told` says that the run from the
start of a file to a state has happened as an account tells, and `Accounts` that a step adds the
account of its answer.  The rules of this module put steps together; the account of a sequence is
that of its parts, one behind the other.
-/
import Idl.Proofs.Trace

namespace Idl

/-! ### Accounts -/

/-- What parsing a part of a tree took. -/
structure Account where
  /-- The identifiers, in order. -/
  idents : List Ident := []
  /-- What is used like an identifier, in order. -/
  marks : List Ident := []
  /-- Identifiers that are not missing. -/
  solid : List Ident := []
  /-- The literals, in order. -/
  lits : List Lit := []
  /-- What happened to names, in order. -/
  events : List NameEvent := []
  /-- Where an error has to be reported. -/
  faults : List Pos := []
  /-- Further places in the file. -/
  spots : List Pos := []

namespace Account

/-- One account behind another. -/
def append (a b : Account) : Account where
  idents := a.idents ++ b.idents
  marks := a.marks ++ b.marks
  solid := a.solid ++ b.solid
  lits := a.lits ++ b.lits
  events := a.events ++ b.events
  faults := a.faults ++ b.faults
  spots := a.spots ++ b.spots

instance : Append Account := ⟨append⟩

variable (a b c : Account)

@[simp] theorem idents_append : (a ++ b).idents = a.idents ++ b.idents := rfl
@[simp] theorem marks_append : (a ++ b).marks = a.marks ++ b.marks := rfl
@[simp] theorem solid_append : (a ++ b).solid = a.solid ++ b.solid := rfl
@[simp] theorem lits_append : (a ++ b).lits = a.lits ++ b.lits := rfl
@[simp] theorem events_append : (a ++ b).events = a.events ++ b.events := rfl
@[simp] theorem faults_append : (a ++ b).faults = a.faults ++ b.faults := rfl
@[simp] theorem spots_append : (a ++ b).spots = a.spots ++ b.spots := rfl

theorem append_assoc : a ++ b ++ c = a ++ (b ++ c) := by
  show append (append a b) c = append a (append b c)
  simp only [append, List.append_assoc]

@[simp] theorem append_nil : a ++ ({} : Account) = a := by
  show append a {} = a
  simp only [append, List.append_nil]

@[simp] theorem nil_append : ({} : Account) ++ a = a := rfl

/-- The accounts of several things, one behind the other. -/
def all {α : Type} (f : α → Account) : List α → Account
  | [] => {}
  | x :: xs => f x ++ all f xs

@[simp] theorem all_nil {α : Type} (f : α → Account) : all f [] = {} := rfl

@[simp] theorem all_cons {α : Type} (f : α → Account) (x : α) (xs : List α) :
    all f (x :: xs) = f x ++ all f xs := rfl

@[simp] theorem all_append {α : Type} (f : α → Account) (xs ys : List α) :
    all f (xs ++ ys) = all f xs ++ all f ys := by
  induction xs with
  | nil => rfl
  | cons x xs ih => rw [List.cons_append, all_cons, ih, all_cons, append_assoc]

/-- An account that leaves things out, but nothing that happened to names. -/
structure Within (a b : Account) : Prop where
  idents : a.idents.Sublist b.idents
  marks : a.marks.Sublist b.marks
  solid : ∀ i ∈ a.solid, i ∈ b.solid
  lits : a.lits.Sublist b.lits
  events : a.events = b.events
  faults : ∀ p ∈ a.faults, p ∈ b.faults
  spots : ∀ p ∈ a.spots, p ∈ b.spots

/-- Leaving out a part in which nothing happened to names. -/
theorem within_insert {a b c : Account} (h : b.events = []) : (a ++ c).Within (a ++ b ++ c) where
  idents := (List.sublist_append_left ..).append (.refl _)
  marks := (List.sublist_append_left ..).append (.refl _)
  solid _ := List.mem_append.2 ∘ (Or.imp_left (List.mem_append_left _)) ∘ List.mem_append.1
  lits := (List.sublist_append_left ..).append (.refl _)
  events := by simp [h]
  faults _ := List.mem_append.2 ∘ (Or.imp_left (List.mem_append_left _)) ∘ List.mem_append.1
  spots _ := List.mem_append.2 ∘ (Or.imp_left (List.mem_append_left _)) ∘ List.mem_append.1

theorem within_append {a b : Account} (h : b.events = []) : a.Within (a ++ b) := by
  simpa using within_insert (a := a) (c := {}) h

/-- An identifier may be told of without saying that it is there. -/
theorem within_solid {a : Account} {i : Ident} :
    (a ++ { idents := [i] }).Within (a ++ { idents := [i], solid := [i] }) where
  idents := .refl _
  marks := .refl _
  solid := by simp +contextual
  lits := .refl _
  events := rfl
  faults _ := id
  spots _ := id

end Account

/-! ### Traces that bear an account out -/

/-- A trace has happened as an account of a part of the file tells that starts at `s₀`. -/
structure Trace.Tells (s₀ : ParseState) (tr : Trace) (a : Account) : Prop where
  idents : a.idents.Sublist tr.idents
  marks : a.marks.Sublist tr.marks
  solid : ∀ i ∈ a.solid, i ∈ tr.named
  lits : a.lits.Sublist tr.lits
  events : tr.events = a.events
  faults : ∀ p ∈ a.faults, ∃ d ∈ tr.reports, d.span.start = p
  spots : ∀ p ∈ a.spots, s₀.file.Owns p
  /-- Whatever is reported may be placed where it is. -/
  shown : ∀ d ∈ tr.reports, s₀.Shows d

namespace Trace.Tells

variable {s₀ : ParseState} {tr tr' : Trace} {a b : Account}

theorem nil : Trace.Tells s₀ [] {} :=
  ⟨.slnil, .slnil, by simp, .slnil, rfl, by simp, by simp, by simp [Trace.reports]⟩

theorem append (h : Trace.Tells s₀ tr a) (h' : Trace.Tells s₀ tr' b) :
    Trace.Tells s₀ (tr ++ tr') (a ++ b) where
  idents := by rw [Trace.idents_append]; exact h.idents.append h'.idents
  marks := by rw [Trace.marks_append]; exact h.marks.append h'.marks
  solid := by
    intro i hi
    rw [Trace.named_append, List.mem_append]
    exact (List.mem_append.1 hi).imp (h.solid i) (h'.solid i)
  lits := by rw [Trace.lits_append]; exact h.lits.append h'.lits
  events := by rw [Trace.events_append, h.events, h'.events]; rfl
  faults := by
    intro p hp
    rw [Trace.reports_append]
    rcases List.mem_append.1 hp with hp | hp
    · obtain ⟨d, hd, hdp⟩ := h.faults p hp
      exact ⟨d, List.mem_append_left _ hd, hdp⟩
    · obtain ⟨d, hd, hdp⟩ := h'.faults p hp
      exact ⟨d, List.mem_append_right _ hd, hdp⟩
  spots := fun p hp => (List.mem_append.1 hp).elim (h.spots p) (h'.spots p)
  shown := by
    rw [Trace.reports_append]
    exact fun d hd => (List.mem_append.1 hd).elim (h.shown d) (h'.shown d)

end Trace.Tells

/-- What an act tells by itself. -/
def Act.account : Act → Account
  | .take t => { lits := (t.kind.litKind?.map fun k => ⟨t.pos, k, t.text⟩).toList }
  | .name _ i => { idents := [i], solid := [i] }
  | .standIn i => { idents := [i] }
  | .mark _ i => { marks := [i] }
  | .report d => { faults := [d.span.start] }
  | .handle e => { events := [e] }
  | .note => {}

theorem Act.tells {s₀ : ParseState} (act : Act) (hd : ∀ d ∈ act.report?, s₀.Shows d) :
    Trace.Tells s₀ [act] act.account := by
  have hnone {α : Type} {p : α → Prop} : ∀ x ∈ ([] : List α), p x := nofun
  cases act with
  | take t =>
    refine ⟨.slnil, .slnil, hnone, ?_, rfl, hnone, hnone, hnone⟩
    show ((t.kind.litKind?.map fun k => (⟨t.pos, k, t.text⟩ : Lit)).toList).Sublist
      ([Act.take t].filterMap Act.lit?)
    cases h : t.kind.litKind? <;> simp [Act.lit?, h]
  | name t i => exact ⟨.refl _, .slnil, fun _ => id, .slnil, rfl, hnone, hnone, hnone⟩
  | standIn i => exact ⟨.refl _, .slnil, hnone, .slnil, rfl, hnone, hnone, hnone⟩
  | mark t i => exact ⟨.slnil, .refl _, hnone, .slnil, rfl, hnone, hnone, hnone⟩
  | report d =>
    refine ⟨.slnil, .slnil, hnone, .slnil, rfl, fun p hp => ⟨d, ?_, ?_⟩, hnone, ?_⟩
    · exact List.mem_singleton_self d
    · exact (List.mem_singleton.1 hp).symm
    · exact fun e he => List.mem_singleton.1 he ▸ hd d rfl
  | handle e => exact ⟨.slnil, .slnil, hnone, .slnil, rfl, hnone, hnone, hnone⟩
  | note => exact ⟨.slnil, .slnil, hnone, .slnil, rfl, hnone, hnone, hnone⟩

/-- The file that starts at `s₀` was parsed up to `s` as the account tells, and the declaration
at `index` is being parsed. -/
structure Told (index : Nat) (s₀ : ParseState) (a : Account) (s : ParseState) : Prop where
  start : s₀.Ready
  index : s.declIndex = index
  run : ∃ tr, Run s₀ tr s ∧ Trace.Tells s₀ tr a

namespace Told

variable {index : Nat} {s₀ s s' : ParseState} {a b : Account} {act : Act}

theorem ready (h : Told index s₀ a s) : s.Ready := by
  obtain ⟨tr, r, -⟩ := h.run
  exact r.ready h.start

theorem file (h : Told index s₀ a s) : s.file = s₀.file := by
  obtain ⟨tr, r, -⟩ := h.run
  exact r.frame.1

theorem fileId (h : Told index s₀ a s) : s.fileId = s₀.fileId := by
  obtain ⟨tr, r, -⟩ := h.run
  exact r.frame.2.1

theorem fileScope (h : Told index s₀ a s) : s.fileScope = s₀.fileScope := by
  obtain ⟨tr, r, -⟩ := h.run
  exact r.frame.2.2.1

theorem scopes_size (h : Told index s₀ a s) :
    s.symbols.scopes.size = s₀.symbols.scopes.size + NameEvent.enters a.events := by
  obtain ⟨tr, r, htr⟩ := h.run
  rw [r.scopes_size, htr.events]

theorem owns_current (h : Told index s₀ a s) : s₀.file.Owns s.current.token.pos :=
  h.file ▸ h.ready.owns_current

/-- No identifier is told of twice. -/
theorem idents_nodup (h : Told index s₀ a s) : a.idents.Nodup := by
  obtain ⟨tr, r, htr⟩ := h.run
  have hlt := r.numbered_lt.sublist (htr.idents.trans tr.idents_sublist)
  exact hlt.imp fun hij heq => absurd (heq ▸ hij) (Nat.lt_irrefl _)

/-- No literal is told of twice. -/
theorem lits_nodup (h : Told index s₀ a s) : a.lits.Nodup := by
  obtain ⟨tr, r, htr⟩ := h.run
  have hlt := (r.lits_ordered h.start).sublist htr.lits
  exact hlt.imp fun hij heq => absurd (heq ▸ hij) (Nat.lt_irrefl _)

theorem owns_ident (h : Told index s₀ a s) {i : Ident} (hi : i ∈ a.idents) :
    s₀.file.Owns i.pos := by
  obtain ⟨tr, r, htr⟩ := h.run
  exact r.numbered_owned h.start (tr.idents_sublist.subset (htr.idents.subset hi))

theorem owns_lit (h : Told index s₀ a s) {l : Lit} (hl : l ∈ a.lits) : s₀.file.Owns l.pos := by
  obtain ⟨tr, r, htr⟩ := h.run
  exact r.lit_owned h.start (htr.lits.subset hl)

theorem holds_current (h : Told index s₀ a s) : s₀.file.Holds s.current.token.span :=
  h.file ▸ h.ready.holds_current

theorem holds_solid (h : Told index s₀ a s) {i : Ident} (hi : i ∈ a.solid) :
    s₀.file.Holds i.span := by
  obtain ⟨tr, r, htr⟩ := h.run
  exact r.named_held h.start (htr.solid i hi)

/-- An identifier lies in the file, unless it is missing where the file ends. -/
theorem holds_ident (h : Told index s₀ a s) {i : Ident} (hi : i ∈ a.idents) :
    s₀.file.Holds i.span ∨ i.span = .ofWidth (s₀.file.base + s₀.file.size) 1 := by
  obtain ⟨tr, r, htr⟩ := h.run
  exact r.ident_held h.start (htr.idents.subset hi)

/-- Nothing is left where the file ends. -/
theorem left_eq_nil (h : Told index s₀ a s)
    (hpos : s.current.token.pos = s₀.file.base + s₀.file.size) : s.left = [] :=
  h.ready.left_eq_nil (h.file.symm ▸ hpos)

/-- When a single token is left, the file ends in it. -/
theorem endsIn (h : Told index s₀ a s) {t : SignificantToken} (hleft : s.left = [t]) :
    s₀.EndsIn t.token.kind := by
  obtain ⟨tr, r, -⟩ := h.run
  exact r.endsIn hleft

theorem step (h : Told index s₀ a s) (st : Step s act s') (hi : s'.declIndex = s.declIndex)
    (hd : ∀ d ∈ act.report?, s₀.Shows d) : Told index s₀ (a ++ act.account) s' := by
  obtain ⟨tr, r, htr⟩ := h.run
  exact ⟨h.start, hi.trans h.index, tr ++ [act], r.append st.run, htr.append (act.tells hd)⟩

/-- Less may be told. -/
theorem within (h : Told index s₀ a s) (hb : b.Within a) : Told index s₀ b s := by
  obtain ⟨tr, r, htr⟩ := h.run
  exact ⟨h.start, h.index, tr, r,
    { idents := hb.idents.trans htr.idents
      marks := hb.marks.trans htr.marks
      solid := fun i hi => htr.solid i (hb.solid i hi)
      lits := hb.lits.trans htr.lits
      events := htr.events.trans hb.events.symm
      faults := fun p hp => htr.faults p (hb.faults p hp)
      spots := fun p hp => htr.spots p (hb.spots p hp)
      shown := htr.shown }⟩

/-- What is known to be in the file, or reported, may be told again. -/
theorem again (h : Told index s₀ a s) {b : Account} (hi : b.idents = []) (hm : b.marks = [])
    (hs : b.solid = []) (hl : b.lits = []) (he : b.events = []) (hf : ∀ p ∈ b.faults, p ∈ a.faults)
    (hp : ∀ p ∈ b.spots, s₀.file.Owns p) : Told index s₀ (a ++ b) s := by
  obtain ⟨tr, r, htr⟩ := h.run
  refine ⟨h.start, h.index, tr, r, ?_⟩
  constructor
  · rw [Account.idents_append, hi, List.append_nil]; exact htr.idents
  · rw [Account.marks_append, hm, List.append_nil]; exact htr.marks
  · rw [Account.solid_append, hs, List.append_nil]; exact htr.solid
  · rw [Account.lits_append, hl, List.append_nil]; exact htr.lits
  · rw [Account.events_append, he, List.append_nil]; exact htr.events
  · exact fun p h => (List.mem_append.1 h).elim (htr.faults p) fun h => htr.faults p (hf p h)
  · exact fun p h => (List.mem_append.1 h).elim (htr.spots p) (hp p)
  · exact htr.shown

/-- A step that nothing is to be told about. -/
theorem quiet (h : Told index s₀ a s) (st : Step s act s') (hi : s'.declIndex = s.declIndex)
    (he : act.account.events = []) (hd : act.report? = none) : Told index s₀ a s' :=
  (h.step st hi (by simp [hd])).within (Account.within_append he)

end Told

/-! ### Steps of parsing that lead somewhere -/

namespace Parse

variable {α β : Type} {P R : ParseState → Prop}

/-- From a state of `P`, the step leads to a state that `Q` holds of, together with its answer. -/
def Leads (P : ParseState → Prop) (m : Parse α) (Q : α → ParseState → Prop) : Prop :=
  ∀ s, P s → Q (m s).1 (m s).2

namespace Leads

variable {m : Parse α} {f : α → Parse β} {Q : α → ParseState → Prop} {Q' : β → ParseState → Prop}

protected theorem bind (hm : Leads P m Q) (hf : ∀ a, Leads (Q a) (f a) Q') :
    Leads P (m >>= f) Q' := fun s hs => hf (m s).1 (m s).2 (hm s hs)

protected theorem pure {a : α} (h : ∀ s, P s → Q a s) : Leads P (pure a) Q := h

protected theorem map {g : α → β} (hm : Leads P m fun a => Q' (g a)) : Leads P (g <$> m) Q' := hm

theorem imp (hm : Leads P m Q) (h : ∀ s, R s → P s) : Leads R m Q := fun s hs => hm s (h s hs)

/-- What follows from what is known of the state. -/
theorem use {φ : Prop} (h : ∀ s, P s → φ) (hm : φ → Leads P m Q) : Leads P m Q :=
  fun s hs => hm (h s hs) s hs

/-- Two things that a step leads to. -/
theorem and {R' : α → ParseState → Prop} (hm : Leads P m Q) (hm' : Leads R m R') :
    Leads (fun s => P s ∧ R s) m fun a s => Q a s ∧ R' a s :=
  fun s hs => ⟨hm s hs.1, hm' s hs.2⟩

/-- What is known of the state besides is not needed. -/
theorem forget (hm : Leads P m Q) : Leads (fun s => P s ∧ R s) m Q := hm.imp fun _ h => h.1

protected theorem ite {c : Prop} [Decidable c] {m' : Parse α} (h : c → Leads P m Q)
    (h' : ¬ c → Leads P m' Q) : Leads P (if c then m else m') Q := by
  by_cases hc : c
  · rw [if_pos hc]; exact h hc
  · rw [if_neg hc]; exact h' hc

/-- Looking at the state. -/
theorem read (g : ParseState → α) (hf : ∀ a, Leads (fun s => P s ∧ g s = a) (f a) Q') :
    Leads P ((fun s => (g s, s) : Parse α) >>= f) Q' := fun s hs => hf (g s) s ⟨hs, rfl⟩

theorem current {f : SignificantToken → Parse β}
    (hf : ∀ t, Leads (fun s => P s ∧ s.current = t) (f t) Q') : Leads P (Parse.current >>= f) Q' :=
  read _ hf

theorem kind {f : TokenKind → Parse β}
    (hf : ∀ k, Leads (fun s => P s ∧ s.current.token.kind = k) (f k) Q') :
    Leads P (Parse.kind >>= f) Q' := read _ hf

theorem pos {f : Pos → Parse β}
    (hf : ∀ p, Leads (fun s => P s ∧ s.current.token.pos = p) (f p) Q') :
    Leads P (Parse.pos >>= f) Q' := read _ hf

theorem line {f : Nat → Parse β} (hf : ∀ n, Leads P (f n) Q') : Leads P (Parse.line >>= f) Q' :=
  read _ fun n => (hf n).forget

theorem nextKind {f : TokenKind → Parse β} (hf : ∀ k, Leads P (f k) Q') :
    Leads P (Parse.nextKind >>= f) Q' := read _ fun k => (hf k).forget

theorem atEnd {f : Bool → Parse β}
    (hf : ∀ b, Leads (fun s => P s ∧ s.left.isEmpty = b) (f b) Q') :
    Leads P (Parse.atEnd >>= f) Q' := read _ hf

theorem check {k : TokenKind} {f : Bool → Parse β}
    (hf : ∀ b, Leads (fun s => P s ∧ (s.current.token.kind == k) = b) (f b) Q') :
    Leads P (Parse.check k >>= f) Q' := read _ hf

theorem trailing {f : Option CommentGroup → Parse β} (hf : ∀ g, Leads P (f g) Q') :
    Leads P (Parse.trailing >>= f) Q' := read _ fun g => (hf g).forget

theorem get {f : ParseState → Parse β} (hf : ∀ t, Leads (fun s => P s ∧ s = t) (f t) Q') :
    Leads P (MonadState.get >>= f) Q' := read (fun s => s) hf

/-- What each repetition keeps, all of them keep. -/
protected theorem iterate {step : α → Parse (Option α)} {I : α → ParseState → Prop}
    (h : ∀ a, Leads (I a) (step a) fun r s => I (r.getD a) s) (a : α) :
    Leads (I a) (iterate step a) I := by
  intro s hs
  fun_induction iterate step a s with
  | case1 a s t hstep =>
    have := h a s hs
    rw [hstep] at this
    exact this
  | case2 a s a' t hstep hlt ih =>
    have := h a s hs
    rw [hstep] at this
    exact ih this
  | case3 a s a' t hstep hlt =>
    have := h a s hs
    rw [hstep] at this
    exact this

end Leads

/-! ### Steps that add the account of their answer -/

variable {index : Nat} {s₀ : ParseState}

/-- The step adds the account `A` of its answer, whatever was told before. -/
def Accounts (index : Nat) (s₀ : ParseState) (m : Parse α) (A : α → Account) : Prop :=
  ∀ pre, Leads (Told index s₀ pre) m fun a => Told index s₀ (pre ++ A a)

namespace Accounts

variable {m : Parse α} {f : α → Parse β} {A : α → Account} {Q : β → ParseState → Prop}
  {pre : Account}

protected theorem bind (hm : Accounts index s₀ m A)
    (hf : ∀ a, Leads (Told index s₀ (pre ++ A a)) (f a) Q) :
    Leads (Told index s₀ pre) (m >>= f) Q := (hm pre).bind hf

/-- A step that nothing is to be told about. -/
protected theorem keeps_told (hm : Accounts index s₀ m fun _ => {}) :
    Leads (Told index s₀ pre) m fun _ => Told index s₀ pre := by
  intro s hs
  have h : Told index s₀ (pre ++ {}) (m s).2 := hm pre s hs
  rwa [Account.append_nil] at h

protected theorem skip (hm : Accounts index s₀ m fun _ => {})
    (hf : ∀ a, Leads (Told index s₀ pre) (f a) Q) : Leads (Told index s₀ pre) (m >>= f) Q :=
  hm.keeps_told.bind hf

end Accounts

/-- The answer is told of when what was told adds up to its account. -/
theorem Leads.done {pre pre' : Account} {a : α} {A : α → Account} (h : pre' = pre ++ A a) :
    Leads (Told index s₀ pre') (pure a) fun a => Told index s₀ (pre ++ A a) :=
  .pure fun _ hs => h ▸ hs

/-- A last step answers for everything before it, too. -/
theorem Accounts.last {pre pre' : Account} {m : Parse α} {A B : α → Account}
    (hm : Accounts index s₀ m B) (h : ∀ a, pre' ++ B a = pre ++ A a) :
    Leads (Told index s₀ pre') m fun a => Told index s₀ (pre ++ A a) := by
  intro s hs
  show Told index s₀ (pre ++ A (m s).1) (m s).2
  rw [← h]
  exact hm pre' s hs

theorem Accounts.option {m : Parse α} {A : α → Account} (hm : Accounts index s₀ m A) :
    Accounts index s₀ (some <$> m) fun r => .all A r.toList :=
  fun _ => .map (hm.last fun a => congrArg (_ ++ ·) (A a).append_nil.symm)

/-- A loop adds up accounts when each repetition does. -/
theorem Leads.loop {pre' : Account} {step : α → Parse (Option α)} {a : α} (pre : Account)
    (A : α → Account) (hstart : pre' = pre ++ A a)
    (h : ∀ a, Leads (Told index s₀ (pre ++ A a)) (step a)
      fun r => Told index s₀ (pre ++ A (r.getD a))) :
    Leads (Told index s₀ pre') (Parse.iterate step a) fun a => Told index s₀ (pre ++ A a) :=
  hstart ▸ Leads.iterate (I := fun a => Told index s₀ (pre ++ A a)) h a

theorem Leads.nothing {pre : Account} {a : α} :
    Leads (Told index s₀ pre) (pure a) fun _ => Told index s₀ (pre ++ {}) :=
  .done (A := fun _ => {}) pre.append_nil.symm

end Parse

end Idl
