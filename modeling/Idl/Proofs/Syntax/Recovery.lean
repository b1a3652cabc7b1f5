/-
Idl/Proofs/Syntax/Recovery.lean

What starts no declaration is skipped, once, and nothing else happens.

Skipping stops at the first keyword that starts a declaration, if that lies beyond the place where
it stopped last.  It always does: between two stops the declaration at the first of them has been
taken, and no step but skipping changes what is known about the last stop (`Parse.InTurn`).  So the
limit on stops at one place is never reached, and the state behind what was skipped is known exactly
(`ParseState.recovered`).

Main result: `recovery_local`, about every declaration of a source that is parsed.
-/
import Idl.Proofs.Comments.Attach
import Idl.Proofs.Syntax.Members
import Idl.Proofs.Syntax.Stops

namespace Idl

/-! ### Skipping -/

/-- Whether a token does not start a declaration, and so is skipped. -/
def SignificantToken.isSkipped (t : SignificantToken) : Bool := !Parse.startsDecl t.token.kind

/-- The state after skipping: the tokens up to the first one that starts a declaration are gone, and
the place of that one is where skipping stopped last. -/
def ParseState.skipped (s : ParseState) : ParseState :=
  let left := s.left.dropWhile SignificantToken.isSkipped
  { s with
    left := left
    lead := (left.headD s.eof).lead
    syncPos := (left.head?.map (·.token.pos)).getD s.syncPos }

/-- The state after what starts no declaration: one report is made, and the tokens are skipped. -/
def ParseState.recovered (s : ParseState) : ParseState :=
  let t := s.current.token
  { s.skipped with
    diagnostics :=
      s.diagnostics.push (.error ("expected declaration, found " ++ t.foundName) t.span) }

/-- What was skipped, if the declaration is what came of skipping. -/
def Decl.skipped? : Decl → Option Span
  | .bad span => some span
  | _ => none

/-- What was skipped among declarations, in order. -/
def skippedAmong (decls : List Decl) : List Span := decls.filterMap Decl.skipped?

namespace Parse

variable {s : ParseState} {t : SignificantToken} {rest : List SignificantToken}

theorem skipStep_nil (hleft : s.left = []) : skipStep () s = (none, s) := by
  unfold skipStep
  rw [bind_apply, get_apply]
  dsimp only
  rw [hleft]
  rfl

/-- Skipping stops at a token that starts a declaration beyond the last stop. -/
theorem skipStep_stop (hleft : s.left = t :: rest) (hstart : t.isSkipped = false)
    (hbeyond : s.syncPos < t.token.pos) :
    skipStep () s = (none, { s with syncPos := t.token.pos, syncStops := 0 }) := by
  have hcurrent : s.current = t := by rw [ParseState.current, hleft, List.headD_cons]
  have hstarts : startsDecl t.token.kind = true := by
    rwa [SignificantToken.isSkipped, Bool.not_eq_false'] at hstart
  have hne : (t.token.pos == s.syncPos) = false := beq_false_of_ne (Nat.ne_of_gt hbeyond)
  unfold skipStep
  rw [bind_apply, get_apply]
  simp only [hcurrent, hleft, hstarts, hne, hbeyond, List.isEmpty_cons, Bool.and_false,
    Bool.false_and, Bool.false_eq_true, decide_true, Bool.and_true, ↓reduceIte]
  rfl

/-- Skipping passes a token that starts no declaration. -/
theorem skipStep_pass (hleft : s.left = t :: rest) (hskip : t.isSkipped = true) :
    skipStep () s = (some (), { s with left := rest, lead := (rest.headD s.eof).lead }) := by
  have hcurrent : s.current = t := by rw [ParseState.current, hleft, List.headD_cons]
  have hstarts : startsDecl t.token.kind = false := by
    rwa [SignificantToken.isSkipped, Bool.not_eq_true'] at hskip
  unfold skipStep
  rw [bind_apply, get_apply]
  simp only [hcurrent, hleft, hstarts, List.isEmpty_cons, Bool.false_and, Bool.false_eq_true,
    ↓reduceIte]
  rw [bind_apply, advance_of_left hleft]
  rfl

/-- Nothing is skipped where no token is left. -/
theorem skipped_nil (hleft : s.left = []) (hlead : s.lead = s.current.lead) : s.skipped = s := by
  cases s
  dsimp only [ParseState.current] at hleft hlead
  subst hleft hlead
  rfl

/-- Nothing is skipped where a declaration starts. -/
theorem skipped_stop (hleft : s.left = t :: rest) (hlead : s.lead = s.current.lead)
    (hstops : s.syncStops = 0) (hstart : t.isSkipped = false) :
    s.skipped = { s with syncPos := t.token.pos, syncStops := 0 } := by
  cases s
  dsimp only [ParseState.current] at hleft hlead hstops
  subst hleft hlead hstops
  have hdrop : (t :: rest).dropWhile SignificantToken.isSkipped = t :: rest :=
    List.dropWhile_cons_of_neg (ne_true_of_eq_false hstart)
  unfold ParseState.skipped
  dsimp only
  rw [hdrop]
  rfl

/-- A token that is skipped makes no difference. -/
theorem skipped_pass (hleft : s.left = t :: rest) (hskip : t.isSkipped = true) :
    { s with left := rest, lead := (rest.headD s.eof).lead }.skipped = s.skipped := by
  have hdrop : s.left.dropWhile SignificantToken.isSkipped =
      rest.dropWhile SignificantToken.isSkipped := by
    rw [hleft, List.dropWhile_cons_of_pos hskip]
  unfold ParseState.skipped
  dsimp only
  rw [hdrop]

/-- Skipping goes on to the first token that starts a declaration, if all of them lie beyond the
last stop. -/
theorem skipToDecl_eq
    (hlead : s.lead = s.current.lead ∨ ∃ t rest, s.left = t :: rest ∧ t.isSkipped = true)
    (hstops : s.syncStops = 0) (hbeyond : ∀ t ∈ s.left, s.syncPos < t.token.pos) :
    skipToDecl s = ((), s.skipped) := by
  unfold skipToDecl
  generalize hts : s.left = ts at hbeyond
  -- by induction on what is left; from the first token passed on, the lead is that of the current one
  induction ts generalizing s with
  | nil =>
    rcases hlead with hlead | ⟨t, rest, hleft, -⟩
    · rw [iterate, skipStep_nil hts, skipped_nil hts hlead]
    · exact absurd (hts.symm.trans hleft) (List.cons_ne_nil t rest).symm
  | cons t rest ih =>
    cases hskip : t.isSkipped with
    | false =>
      rcases hlead with hlead | ⟨u, rest', hleft, hu⟩
      · rw [iterate, skipStep_stop hts hskip (hbeyond t List.mem_cons_self),
          skipped_stop hts hlead hstops hskip]
      · obtain ⟨rfl, -⟩ := List.cons.inj (hts.symm.trans hleft)
        exact absurd (hskip.symm.trans hu) Bool.false_ne_true
    | true =>
      have hlt : rest.length < s.left.length := by
        rw [hts]
        exact Nat.lt_succ_self _
      rw [iterate, skipStep_pass hts hskip]
      dsimp only
      rw [if_pos hlt, ← skipped_pass hts hskip]
      exact ih (.inl rfl) hstops rfl fun u hu => hbeyond u (List.mem_cons_of_mem _ hu)

/-- What starts no declaration is reported and skipped. -/
theorem decl_eq_of_not_startsDecl (hskip : startsDecl s.current.token.kind = false) :
    decl s = (do
      let start ← pos
      reportExpected "declaration"
      skipToDecl
      return .bad ⟨start, ← pos⟩ : Parse Decl) s := by
  unfold decl
  rw [bind_apply, kind]
  refine congrFun ?_ s
  split
  case h_6 => rfl
  all_goals
    next hkind =>
    rw [show s.current.token.kind = _ from hkind] at hskip
    cases hskip

/-- Beyond the last stop, what starts no declaration is skipped up to what does. -/
theorem decl_recovers (hs : s.Ready) (hleft : s.left = s.current :: rest)
    (hskip : startsDecl s.current.token.kind = false) (hstops : s.syncStops = 0)
    (hbeyond : s.syncPos < s.current.token.pos) :
    decl s = (.bad ⟨s.current.token.pos, s.recovered.current.token.pos⟩, s.recovered) := by
  let reported : ParseState := (reportExpected "declaration" s).2
  have hskipped : skipToDecl reported = ((), reported.skipped) := by
    refine skipToDecl_eq (.inr ⟨s.current, rest, hleft, ?_⟩) hstops fun t ht => ?_
    · rw [SignificantToken.isSkipped, hskip, Bool.not_false]
    · refine Nat.lt_of_lt_of_le hbeyond (hs.current_le ?_)
      exact List.mem_append_left _ (List.mem_map_of_mem ht)
  have hstate : reported.skipped = s.recovered := rfl
  rw [decl_eq_of_not_startsDecl hskip, bind_apply, bind_apply]
  show (skipToDecl >>= _ : Parse Decl) reported = _
  rw [bind_apply, hskipped, hstate]
  rfl

/-- Where a declaration starts, it is taken, and the last stop is left alone. -/
theorem decl_stays (hstart : startsDecl s.current.token.kind = true) :
    (decl s).1.skipped? = none ∧ (decl s).2.syncPos = s.syncPos ∧
      (decl s).2.syncStops = s.syncStops := by
  have hbean (kind : BeanKind) : Unskipping (Decl.bean <$> bean kind) := (bean_unskipping kind).map
  have hconsts : Unskipping (Decl.consts <$> specGroup constSpec none) := consts_unskipping.map
  suffices h : Leads (fun t => t = s) decl fun d t => d.skipped? = none ∧
      t.syncPos = s.syncPos ∧ t.syncStops = s.syncStops from h s rfl
  refine .kind fun k => ?_
  rintro t ⟨rfl, rfl⟩
  unfold startsDecl at hstart
  split at hstart
  case h_6 => cases hstart
  case h_1 hkind => rw [hkind]; exact ⟨rfl, hconsts t⟩
  case h_2 hkind => rw [hkind]; exact ⟨rfl, hbean .protocol t⟩
  case h_3 hkind => rw [hkind]; exact ⟨rfl, hbean .struct t⟩
  case h_4 hkind => rw [hkind]; exact ⟨rfl, hbean .service t⟩
  case h_5 hkind => rw [hkind]; exact ⟨rfl, hbean .enum t⟩

/-! ### Between declarations -/

/-- Where tokens have been taken, the current one stands further on. -/
theorem current_lt (hs : s.Ready) {u : ParseState} (h : s.Behind u)
    (hlt : u.left.length < s.left.length) : s.current.token.pos < u.current.token.pos := by
  obtain ⟨t, rest, hleft⟩ := List.exists_cons_of_ne_nil (List.ne_nil_of_length_pos
    (Nat.lt_of_le_of_lt (Nat.zero_le _) hlt))
  have hcurrent : s.current = t := by rw [ParseState.current, hleft, List.headD_cons]
  have hrest : u.left ⊆ rest := by
    have hsuffix := h.left
    rw [hleft] at hsuffix hlt
    rcases List.suffix_cons_iff.1 hsuffix with heq | hsuffix
    · exact absurd hlt (heq ▸ Nat.lt_irrefl _)
    · exact hsuffix.subset
  have hbehind : u.current.token ∈ rest.map (·.token) ++ [s.eof.token] := by
    rw [ParseState.current, h.eof]
    cases hu : u.left with
    | nil => exact List.mem_append_right _ (List.mem_singleton_self _)
    | cons v more =>
      have hv : v ∈ rest := hrest (hu ▸ List.mem_cons_self)
      exact List.mem_append_left _ (List.mem_map_of_mem hv)
  have hincreasing := hs.increasing
  rw [ParseState.tokens, hleft, List.map_cons, List.cons_append] at hincreasing
  rw [hcurrent]
  exact (List.pairwise_cons.1 hincreasing).1 _ hbehind

/-- Skipping has stopped at the end of the file, or else where a declaration starts. -/
theorem recovered_syncPos (s : ParseState) :
    s.recovered.left = [] ∧ s.recovered.syncPos = s.syncPos ∨
      s.recovered.syncPos = s.recovered.current.token.pos ∧
        startsDecl s.recovered.current.token.kind = true := by
  have hhead := List.head?_dropWhile_not SignificantToken.isSkipped s.left
  unfold ParseState.recovered ParseState.skipped ParseState.current
  dsimp only
  cases hleft : s.left.dropWhile SignificantToken.isSkipped with
  | nil => exact .inl ⟨rfl, rfl⟩
  | cons t rest =>
    rw [hleft] at hhead
    have hstart : t.isSkipped = false := hhead
    rw [SignificantToken.isSkipped, Bool.not_eq_false'] at hstart
    exact .inr ⟨rfl, hstart⟩

/-- A declaration can be taken from the state, behind the declarations `decls`.  Skipping has not
stopped twice at one place, and it stopped last before the current token, or at it if that starts a
declaration.  What was skipped lies before that stop. -/
structure InTurn (decls : List Decl) (s : ParseState) : Prop where
  ready : s.Ready
  stops : s.syncStops = 0
  le : s.syncPos ≤ s.current.token.pos
  starts : s.syncPos = s.current.token.pos → startsDecl s.current.token.kind = true
  apart : (skippedAmong decls).Pairwise fun a b => a.stop < b.start
  nonempty : ∀ a ∈ skippedAmong decls, a.start < a.stop
  before : s.left ≠ [] → ∀ a ∈ skippedAmong decls, a.stop ≤ s.syncPos

namespace InTurn

variable {decls : List Decl} (h : InTurn decls s)
include h

/-- Numbering the next declaration changes nothing. -/
theorem numbered (i : Nat) : InTurn decls { s with declIndex := i } :=
  ⟨h.ready.same rfl rfl rfl, h.stops, h.le, h.starts, h.apart, h.nonempty, h.before⟩

/-- What starts no declaration is skipped. -/
theorem recovers (hleft : s.left ≠ []) (hskip : startsDecl s.current.token.kind = false) :
    decl s = (.bad ⟨s.current.token.pos, s.recovered.current.token.pos⟩, s.recovered) ∧
      s.syncPos < s.current.token.pos := by
  have hbeyond : s.syncPos < s.current.token.pos :=
    Nat.lt_of_le_of_ne h.le fun heq => Bool.false_ne_true (hskip.symm.trans (h.starts heq))
  obtain ⟨t, rest, hcons⟩ := List.exists_cons_of_ne_nil hleft
  have hcurrent : s.current = t := by rw [ParseState.current, hcons, List.headD_cons]
  exact ⟨decl_recovers h.ready (hcurrent ▸ hcons) hskip h.stops hbeyond, hbeyond⟩

/-- Behind a declaration, the next one is taken. -/
theorem next (hleft : s.left ≠ []) : InTurn (decls ++ [(decl s).1]) (decl s).2 := by
  have hbehind := decl_passes s h.ready
  have hready := hbehind.ready h.ready
  have hlt := (decl_shrinks s ⟨⟨h.ready, Nat.lt_succ_self _⟩, hleft⟩).left
  have hfurther := current_lt h.ready hbehind hlt
  cases hstart : startsDecl s.current.token.kind with
  | true =>
    -- the last stop stays where it is, and the current token moves beyond it
    obtain ⟨hnone, hpos, hstops⟩ := decl_stays hstart
    have hspans : skippedAmong (decls ++ [(decl s).1]) = skippedAmong decls := by
      rw [skippedAmong, List.filterMap_append, List.filterMap_cons_none hnone, List.filterMap_nil,
        List.append_nil]
      rfl
    have hbefore : (decl s).2.syncPos < (decl s).2.current.token.pos :=
      Nat.lt_of_le_of_lt (hpos ▸ h.le) hfurther
    refine ⟨hready, hstops.trans h.stops, Nat.le_of_lt hbefore,
      fun heq => absurd heq (Nat.ne_of_lt hbefore), ?_, ?_, ?_⟩
    · rw [hspans]
      exact h.apart
    · rw [hspans]
      exact h.nonempty
    · rw [hspans, hpos]
      exact fun _ => h.before hleft
  | false =>
    -- what is skipped starts beyond the last stop, and ends at the new one or at the end of the file
    obtain ⟨heq, hbeyond⟩ := h.recovers hleft hstart
    rw [heq] at hready hfurther ⊢
    let span : Span := ⟨s.current.token.pos, s.recovered.current.token.pos⟩
    have hspans : skippedAmong (decls ++ [.bad span]) = skippedAmong decls ++ [span] :=
      List.filterMap_append
    have hbefore : ∀ a ∈ skippedAmong decls, a.stop < span.start := fun a ha =>
      Nat.lt_of_le_of_lt (h.before hleft a ha) hbeyond
    refine ⟨hready, h.stops, ?_, ?_, ?_, ?_, ?_⟩
    · rcases recovered_syncPos s with ⟨-, hpos⟩ | ⟨hpos, -⟩
      · exact hpos ▸ Nat.le_of_lt (Nat.lt_trans hbeyond hfurther)
      · exact Nat.le_of_eq hpos
    · rcases recovered_syncPos s with ⟨-, hpos⟩ | ⟨-, hstarts⟩
      · exact fun heq => absurd (hpos ▸ heq) (Nat.ne_of_lt (Nat.lt_trans hbeyond hfurther))
      · exact fun _ => hstarts
    · rw [hspans, List.pairwise_append]
      refine ⟨h.apart, List.pairwise_singleton _ _, fun a ha b hb => ?_⟩
      obtain rfl := List.mem_singleton.1 hb
      exact hbefore a ha
    · rw [hspans]
      intro a ha
      rcases List.mem_append.1 ha with ha | ha
      · exact h.nonempty a ha
      · obtain rfl := List.mem_singleton.1 ha
        exact hfurther
    · rw [hspans]
      intro hmore a ha
      rcases recovered_syncPos s with ⟨hnil, -⟩ | ⟨hpos, -⟩
      · exact absurd hnil hmore
      rw [hpos]
      rcases List.mem_append.1 ha with ha | ha
      · exact Nat.le_of_lt (Nat.lt_trans (hbefore a ha) hfurther)
      · obtain rfl := List.mem_singleton.1 ha
        exact Nat.le_refl _

end InTurn

/-! ### Files -/

/-- Everything in front of the declarations that follow the imports. -/
def preamble : Parse (Array Decl) := do
  let _ ← takeLead
  let _ ← expect (.keyword .pkg)
  let _ ← packageName
  endOfItem
  declsWhile (check (.keyword .imp)) (Decl.imports <$> specGroup importSpec ()) #[]

/-- Behind the declarations `decls` of a file that is parsed from `start` on, the next one is taken
from the state. -/
inductive Reached (start : ParseState) : Array Decl → ParseState → Prop
  | first : Reached start (preamble start).1 (preamble start).2
  | next {decls : Array Decl} {s : ParseState} (h : Reached start decls s) (hleft : s.left ≠ []) :
    Reached start (decls.push (decl { s with declIndex := decls.size }).1)
      (decl { s with declIndex := decls.size }).2

theorem preamble_unskipping : Unskipping preamble := by
  have hmore (decls : Array Decl) : Unskipping (moreDecls (check (.keyword .imp))
      (Decl.imports <$> specGroup importSpec ()) decls) := by
    refine .bind (.look _) fun b => .ite ?_ (.pure _)
    refine .bind (fun _ => ⟨rfl, rfl⟩) fun _ => .bind imports_unskipping.map fun _ => .pure _
  refine takeLead_unskipping.bind fun _ => (expect_unskipping _).bind fun _ => ?_
  refine packageName_unskipping.bind fun _ => endOfItem_unskipping.bind fun _ => ?_
  exact .iterate hmore _

/-- Nothing in front of the declarations is skipped. -/
theorem preamble_inTurn {start : ParseState} (hs : start.Ready) (hpos : start.syncPos = 0)
    (hstops : start.syncStops = 0) :
    InTurn (preamble start).1.toList (preamble start).2 := by
  have hready : Leads ParseState.Ready preamble fun _ => ParseState.Ready := by
    refine takeLead_keeps.ready.bind fun _ => (expect_keeps _).ready.bind fun _ => ?_
    refine packageName_keeps.ready.bind fun _ => endOfItem_keeps.ready.bind fun _ => ?_
    exact (Keeps.iterate moreImports_keeps #[]).ready
  have hnone : skippedAmong (preamble start).1.toList = [] := by
    let None (decls : Array Decl) (_ : ParseState) : Prop := skippedAmong decls.toList = []
    refine Leads.iterate (I := None) (fun decls => ?_) #[] _ rfl
    refine .check fun b => .ite (fun _ s hs => ?_) fun _ => .forget (.pure fun _ hs => hs)
    show skippedAmong (decls.push _).toList = []
    rw [Array.toList_push, skippedAmong, List.filterMap_append]
    exact List.append_eq_nil_iff.2 ⟨hs.1, rfl⟩
  have hready := hready start hs
  obtain ⟨hpos', hstops'⟩ := preamble_unskipping start
  have howned : (preamble start).2.current.token.pos ≠ 0 := by
    obtain ⟨rest, hrest⟩ := (preamble start).2.tokens_eq_cons
    exact (hready.owned _ (hrest ▸ List.mem_cons_self)).1
  refine ⟨hready, hstops'.trans hstops, ?_, fun heq => ?_, ?_, ?_, ?_⟩
  · rw [hpos', hpos]
    exact Nat.zero_le _
  · rw [hpos', hpos] at heq
    exact absurd heq.symm howned
  · rw [hnone]
    exact .nil
  · simp [hnone]
  · simp [hnone]

/-- Wherever a declaration is taken, skipping has stopped before it. -/
theorem Reached.inTurn {start : ParseState} (hs : start.Ready) (hpos : start.syncPos = 0)
    (hstops : start.syncStops = 0) {decls : Array Decl} {s : ParseState}
    (h : Reached start decls s) : InTurn decls.toList s := by
  induction h with
  | first => exact preamble_inTurn hs hpos hstops
  | @next decls s h hleft ih =>
    rw [Array.toList_push]
    exact (ih.numbered decls.size).next hleft

theorem moreDecls_of_left (decls : Array Decl) (hleft : s.left ≠ []) :
    moreDecls (not <$> atEnd) decl decls s =
      (some (decls.push (decl { s with declIndex := decls.size }).1),
        (decl { s with declIndex := decls.size }).2) := by
  have hmore : (!s.left.isEmpty) = true := by simpa using hleft
  show (if (!s.left.isEmpty) = true then _ else _ : Parse (Option (Array Decl))) s = _
  rw [if_pos hmore]
  rfl

theorem moreDecls_of_nil (decls : Array Decl) (hleft : s.left = []) :
    moreDecls (not <$> atEnd) decl decls s = (none, s) := by
  have hmore : ¬ (!s.left.isEmpty) = true := by simp [hleft]
  show (if (!s.left.isEmpty) = true then _ else _ : Parse (Option (Array Decl))) s = _
  rw [if_neg hmore]
  rfl

/-- The declarations of a file are taken one behind the other, until no token is left. -/
theorem file_reached (comments : List CommentGroup) {start : ParseState} (hs : start.Ready)
    (hpos : start.syncPos = 0) (hstops : start.syncStops = 0) :
    ∃ s, Reached start (file comments start).1.decls.toArray s ∧ s.left = [] := by
  let decls := declsWhile (not <$> atEnd) decl (preamble start).1 (preamble start).2
  have hreached : Reached start decls.1 decls.2 := by
    refine Leads.iterate (I := Reached start) (fun decls s h => ?_) _ _ .first
    by_cases hleft : s.left = []
    · rw [moreDecls_of_nil decls hleft]
      exact h
    · rw [moreDecls_of_left decls hleft]
      exact .next h hleft
  exact ⟨decls.2, hreached, decls_left _ _ (preamble_inTurn hs hpos hstops).ready⟩

end Parse

/-! ### Sources -/

open Parse in
/-- **Recovery is local.**  Let a declaration be taken at a token that is not the end of the file
and starts no declaration, anywhere in a source for which there are positions left.  Then this is
reported, once; exactly the tokens before the next one that starts a declaration are skipped; the
answer is a bad declaration from the first of them to the token where skipping stops; and nothing
else changes, neither symbols nor resolved and waiting names nor the imports so far.  Over the whole
file, skipping starts beyond the places where it stopped before, so it never stops at a place for a
second time. -/
theorem recovery_local (s : Source) (files : FileSet) (symbols : SymbolTable)
    (hnext : files.next ≠ 0) (hroom : files.next + s.text.utf8ByteSize + 1 < positionBound) :
    ∃ r finish, parseFile files symbols s.name s.text = .ok r ∧
      Reached (s.startAt files symbols) r.file.decls.toArray finish ∧ finish.left = [] ∧
      (∀ decls t, Reached (s.startAt files symbols) decls t → t.syncStops = 0 ∧
        (t.current.token.kind ≠ .eof → startsDecl t.current.token.kind = false →
          let entered := { t with declIndex := decls.size }
          decl entered = (.bad ⟨t.current.token.pos, entered.recovered.current.token.pos⟩,
            entered.recovered) ∧
          (decls.push (decl entered).1).toList.flatMap Decl.importSpecs =
            decls.toList.flatMap Decl.importSpecs)) ∧
      ((skippedAmong r.file.decls).Pairwise fun a b => a.stop < b.start) ∧
      ∀ a ∈ skippedAmong r.file.decls, a.start < a.stop := by
  obtain ⟨r, -, -, hparsed, -⟩ := parseFile_parsed files symbols s.name s.text hnext hroom
  obtain ⟨groups, hfile⟩ := s.file_startAt files symbols hparsed
  have hready := s.startAt_ready files symbols hnext
  have hturn {decls : Array Decl} {t : ParseState} (h : Reached (s.startAt files symbols) decls t) :
      InTurn decls.toList t := h.inTurn hready rfl rfl
  obtain ⟨finish, hreached, hleft⟩ := file_reached groups hready rfl rfl
  rw [← hfile] at hreached
  refine ⟨r, finish, hparsed, hreached, hleft, fun decls t h => ⟨(hturn h).stops, ?_⟩,
    (hturn hreached).apart, (hturn hreached).nonempty⟩
  intro hkind hskip entered
  have hmore : t.left ≠ [] := left_ne_of_kind (hturn h).ready hkind
  obtain ⟨hdecl, -⟩ := ((hturn h).numbered decls.size).recovers hmore hskip
  refine ⟨hdecl, ?_⟩
  rw [hdecl, Array.toList_push, List.flatMap_append]
  exact List.append_nil _

/-- A struct between tokens that start no declaration. -/
def strayTokens : Source := ⟨"a.mid", "package p x y struct S \x7b \x7d \x7d 7"⟩

/-- Skipping stops at the struct, and then at the end of the file. -/
theorem recovery_local_strayTokens :
    ∃ r, parseFile {} {} strayTokens.name strayTokens.text = .ok r ∧
      skippedAmong r.file.decls = [⟨11, 15⟩, ⟨28, 31⟩] ∧
      (skippedAmong r.file.decls).Pairwise fun a b => a.stop < b.start := by
  obtain ⟨r, -, hparsed, -, -, -, hstops, -⟩ :=
    recovery_local strayTokens {} {} (by decide) (by decide)
  have hspans : (parseFile {} {} strayTokens.name strayTokens.text).toOption.map
      (fun r => skippedAmong r.file.decls) = some [⟨11, 15⟩, ⟨28, 31⟩] := by decide +kernel
  rw [hparsed] at hspans
  exact ⟨r, hparsed, Option.some.inj hspans, hstops⟩

end Idl
