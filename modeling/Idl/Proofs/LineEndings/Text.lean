/-
Idl/Proofs/LineEndings/Text.lean

Texts with carriage returns.

`crlf` puts a carriage return in front of every newline, and `stripped` drops all carriage returns.  Both
change carriage returns only (`KeepsRest`), and so does what they do to comments and to literals between
back quotes, the only tokens in which a newline can stand.  Such a literal stands for the same text
whatever carriage returns are in it (`unquote?_onRaw`).  So sources that differ in carriage returns are
respelled (`Respelling.returns`), and the texts of comments in the two representations differ in carriage
returns only.
-/
import Idl.Compilation
import Idl.Proofs.Respelling.Lower
import Idl.Proofs.Token.Lines
import Mathlib.Data.List.Flatten

namespace Idl

/-! ### Newlines with carriage returns -/

/-- A text with a carriage return in front of every newline. -/
def crlf (cs : List Char) : List Char := cs.flatMap fun c => if c = '\n' then ['\r', c] else [c]

/-- A text without its carriage returns. -/
def stripped (cs : List Char) : List Char := cs.filter (· ≠ '\r')

/-- What is done to the characters of a text. -/
def onChars (f : List Char → List Char) (t : String) : String := String.ofList (f t.toList)

/-- A source with a carriage return in front of every newline. -/
def Source.crlf (s : Source) : Source := { s with text := onChars Idl.crlf s.text }

@[simp] theorem toList_onChars (f : List Char → List Char) (t : String) :
    (onChars f t).toList = f t.toList := String.toList_ofList

@[simp] theorem crlf_nil : crlf [] = [] := rfl

@[simp] theorem crlf_newline (cs : List Char) : crlf ('\n' :: cs) = '\r' :: '\n' :: crlf cs := rfl

theorem crlf_cons {c : Char} (hc : c ≠ '\n') (cs : List Char) : crlf (c :: cs) = c :: crlf cs := by
  unfold crlf
  rw [List.flatMap_cons, if_neg hc]
  rfl

theorem crlf_append (cs ds : List Char) : crlf (cs ++ ds) = crlf cs ++ crlf ds := List.flatMap_append

/-- Where no newline stands nothing is put. -/
theorem crlf_eq_self {cs : List Char} (h : '\n' ∉ cs) : crlf cs = cs := by
  induction cs with
  | nil => rfl
  | cons c cs ih =>
    rw [List.mem_cons, not_or] at h
    rw [crlf_cons (Ne.symm h.1), ih h.2]

/-- As many bytes are put as there are newlines. -/
theorem byteWidth_crlf (cs : List Char) : byteWidth (crlf cs) = byteWidth cs + cs.count '\n' := by
  induction cs with
  | nil => rfl
  | cons c cs ih =>
    by_cases hc : c = '\n'
    · subst hc
      rw [crlf_newline, byteWidth_cons, byteWidth_cons, ih, byteWidth_cons, List.count_cons_self]
      have hreturn : '\r'.utf8Size = 1 := rfl
      omega
    · rw [crlf_cons hc, byteWidth_cons, ih, byteWidth_cons, List.count_cons_of_ne hc, Nat.add_assoc]

/-- No newline is lost. -/
theorem count_crlf (cs : List Char) : (crlf cs).count '\n' = cs.count '\n' := by
  induction cs with
  | nil => rfl
  | cons c cs ih =>
    by_cases hc : c = '\n'
    · subst hc
      rw [crlf_newline, List.count_cons_of_ne (by decide), List.count_cons_self, ih,
        List.count_cons_self]
    · rw [crlf_cons hc, List.count_cons_of_ne hc, ih, List.count_cons_of_ne hc]

/-! ### Changes of carriage returns -/

/-- The change `f` of texts changes carriage returns only. -/
def KeepsRest (f : List Char → List Char) : Prop := ∀ cs, stripped (f cs) = stripped cs

theorem keepsRest_id : KeepsRest id := fun _ => rfl

theorem keepsRest_stripped : KeepsRest stripped := fun cs => by
  unfold stripped
  rw [List.filter_filter]
  simp

theorem keepsRest_crlf : KeepsRest crlf := by
  intro cs
  unfold stripped
  induction cs with
  | nil => rfl
  | cons c cs ih =>
    by_cases hc : c = '\n'
    · subst hc
      rw [crlf_newline, List.filter_cons_of_neg (by decide), List.filter_cons_of_pos (by decide), ih,
        List.filter_cons_of_pos (by decide)]
    · rw [crlf_cons hc, List.filter_cons, ih, List.filter_cons]

/-- Where no carriage return stands nothing is dropped. -/
theorem stripped_eq_self {cs : List Char} (h : '\r' ∉ cs) : stripped cs = cs :=
  List.filter_eq_self.2 fun _ hc => decide_eq_true fun heq => h (heq ▸ hc)

/-- Other characters than the carriage return stay where they are. -/
theorem KeepsRest.mem_iff {f : List Char → List Char} (hf : KeepsRest f) {c : Char} (hc : c ≠ '\r')
    {cs : List Char} : c ∈ f cs ↔ c ∈ cs := by
  have hmem (ds : List Char) : c ∈ stripped ds ↔ c ∈ ds := by
    unfold stripped
    rw [List.mem_filter]
    exact and_iff_left (decide_eq_true hc)
  rw [← hmem, hf, hmem]

/-! ### Literals between back quotes -/

/-- What stands between the back quotes of a literal. -/
def rawBody? (t : String) : Option (List Char) :=
  match t.toList with
  | [] => none
  | q :: cs =>
    if q = backQuote ∧ cs.getLast? = some backQuote ∧ backQuote ∉ cs.dropLast then some cs.dropLast
    else none

theorem rawBody?_eq_some_iff {t : String} {body : List Char} : rawBody? t = some body ↔
    t.toList = backQuote :: (body ++ [backQuote]) ∧ backQuote ∉ body := by
  unfold rawBody?
  cases t.toList with
  | nil => simp
  | cons q cs =>
    dsimp only
    constructor
    · intro h
      obtain ⟨⟨rfl, hlast, hnone⟩, hbody⟩ := Option.ite_none_right_eq_some.1 h
      obtain ⟨ds, rfl⟩ := List.getLast?_eq_some_iff.1 hlast
      rw [List.dropLast_concat] at hnone hbody
      obtain rfl : ds = body := Option.some.inj hbody
      exact ⟨rfl, hnone⟩
    · rintro ⟨heq, hnone⟩
      obtain ⟨rfl, rfl⟩ := List.cons.inj heq
      rw [List.getLast?_concat, List.dropLast_concat, if_pos ⟨rfl, rfl, hnone⟩]

/-- Between back quotes everything but the carriage returns stands for itself. -/
theorem unquote?_of_rawBody? {t : String} {body : List Char} (h : rawBody? t = some body) :
    unquote? t = some (String.ofList (stripped body)) := by
  obtain ⟨ht, hnone⟩ := rawBody?_eq_some_iff.1 h
  unfold unquote?
  rw [ht]
  dsimp only
  rw [List.getLast?_concat, List.dropLast_concat, if_pos ⟨.inr (.inr rfl), rfl⟩, unquoteBody?,
    if_pos rfl, if_neg (by rwa [List.contains_iff_mem])]
  rfl

/-- What is done to a literal between back quotes; every other text stays. -/
def onRaw (f : List Char → List Char) (t : String) : String :=
  match rawBody? t with
  | some body => String.ofList (backQuote :: (f body ++ [backQuote]))
  | none => t

theorem onRaw_of_some {f : List Char → List Char} {t : String} {body : List Char}
    (h : rawBody? t = some body) :
    onRaw f t = String.ofList (backQuote :: (f body ++ [backQuote])) := by
  unfold onRaw
  rw [h]

theorem onRaw_of_none {f : List Char → List Char} {t : String} (h : rawBody? t = none) :
    onRaw f t = t := by
  unfold onRaw
  rw [h]

/-- What is done to the characters of a literal is done between its quotes. -/
theorem onRaw_eq_onChars {f : List Char → List Char} (happend : ∀ cs ds, f (cs ++ ds) = f cs ++ f ds)
    (hquote : f [backQuote] = [backQuote]) {t : String} (h : (rawBody? t).isSome = true) :
    onRaw f t = onChars f t := by
  obtain ⟨body, hbody⟩ := Option.isSome_iff_exists.1 h
  have hspelled : t.toList = [backQuote] ++ (body ++ [backQuote]) := (rawBody?_eq_some_iff.1 hbody).1
  rw [onRaw_of_some hbody, onChars, hspelled, happend, happend, hquote, List.singleton_append]

section KeepsRest

variable {f g : List Char → List Char} (hf : KeepsRest f)
include hf

theorem rawBody?_onRaw (t : String) : rawBody? (onRaw f t) = (rawBody? t).map f := by
  cases h : rawBody? t with
  | none => rw [onRaw_of_none h, h]; rfl
  | some body =>
    have hquote : backQuote ≠ '\r' := by decide
    rw [onRaw_of_some h]
    refine rawBody?_eq_some_iff.2 ⟨String.toList_ofList, ?_⟩
    rw [hf.mem_iff hquote]
    exact (rawBody?_eq_some_iff.1 h).2

theorem onRaw_onRaw (t : String) : onRaw g (onRaw f t) = onRaw (g ∘ f) t := by
  have hbody := rawBody?_onRaw hf t
  cases h : rawBody? t with
  | none => rw [onRaw_of_none h, onRaw_of_none h, onRaw_of_none h]
  | some body =>
    rw [h] at hbody
    rw [onRaw_of_some hbody, onRaw_of_some h]
    rfl

/-- A literal stands for the same text whatever carriage returns are in it. -/
theorem unquote?_onRaw (t : String) : unquote? (onRaw f t) = unquote? t := by
  have hbody := rawBody?_onRaw hf t
  cases h : rawBody? t with
  | none => rw [onRaw_of_none h]
  | some body =>
    rw [h] at hbody
    rw [unquote?_of_rawBody? h, unquote?_of_rawBody? hbody, hf]

end KeepsRest

/-! ### Respelled sources -/

/-- Sources whose positions go where `pos` says, and in whose comments and literals carriage returns are
changed by `f`. -/
def Respelling.returns (pos : Pos → Pos) (hzero : pos 0 = 0) (hmono : StrictMono pos)
    (f : List Char → List Char) (hf : KeepsRest f) : Respelling where
  pos := pos
  literal := onRaw f
  comment := onChars f
  pos_zero := hzero
  strictMono := hmono
  unquote?_literal := unquote?_onRaw hf
  literal_malformed {t} h := by
    cases hbody : rawBody? t with
    | none => exact onRaw_of_none hbody
    | some body =>
      rw [unquote?_of_rawBody? hbody] at h
      cases h

/-- Carriage returns are dropped from the texts of comments and from literals between back quotes. -/
def Retexting.stripped : Retexting := ⟨onChars Idl.stripped, onRaw Idl.stripped⟩

/-- Carriage returns are dropped piece by piece. -/
theorem stripped_intercalate {sep : List Char} (hsep : stripped sep = sep) (xs : List (List Char)) :
    stripped (sep.intercalate xs) = sep.intercalate (xs.map stripped) := by
  have happend (cs ds : List Char) : stripped (cs ++ ds) = stripped cs ++ stripped ds :=
    List.filter_append ..
  -- nothing is put behind the last piece, so it is a case of its own
  induction xs with
  | nil => rfl
  | cons x xs ih =>
    cases xs with
    | nil => rw [List.map_singleton, List.intercalate_singleton, List.intercalate_singleton]
    | cons y ys =>
      rw [List.intercalate_cons_cons, happend, happend, hsep, ih, List.map_cons, List.map_cons,
        List.map_cons, List.intercalate_cons_cons]

/-- The text of a group is respelled comment by comment. -/
theorem CommentGroup.text_respelled (ρ : Respelling) (g : CommentGroup) :
    (g.respelled ρ).text = "\n".intercalate (g.comments.map fun c => ρ.comment c.text) :=
  congrArg ("\n".intercalate ·) List.map_map

/-- Carriage returns are dropped comment by comment. -/
theorem onChars_stripped_text (g : CommentGroup) : onChars stripped g.text =
    "\n".intercalate (g.comments.map fun c => onChars stripped c.text) := by
  rw [← String.toList_inj]
  unfold CommentGroup.text
  rw [toList_onChars, String.toList_intercalate, String.toList_intercalate, List.map_map, List.map_map,
    stripped_intercalate rfl, List.map_map]
  congr 1
  exact List.map_congr_left fun c _ => (toList_onChars stripped c.text).symm

section Reconciles

variable {pos : Pos → Pos} {hzero : pos 0 = 0} {hmono : StrictMono pos} {f : List Char → List Char}
  {hf : KeepsRest f}

/-- Lowering a group of comments makes a text of it, the same for all kinds of comments. -/
theorem Respelling.Reconciles.of_texts {ρ : Respelling} {σ τ : Retexting}
    (hempty : σ.comment "" = τ.comment "")
    (htext : ∀ (g : CommentGroup) (tail : String), tail = "" ∨ tail = "\n" →
      σ.comment ((g.respelled ρ).text ++ tail) = τ.comment (g.text ++ tail))
    (hliteral : ∀ t, σ.literal (ρ.literal t) = τ.literal t) : ρ.Reconciles σ τ where
  doc g := by
    cases g with
    | none => exact hempty
    | some g => exact htext g "\n" (.inr rfl)
  comment g := by
    cases g with
    | none => exact hempty
    | some g =>
      have h := htext g "" (.inl rfl)
      rwa [String.append_empty, String.append_empty] at h
  literal := hliteral

theorem onChars_stripped_append (t u : String) :
    onChars stripped (t ++ u) = onChars stripped t ++ onChars stripped u := by
  rw [← String.toList_inj, toList_onChars, String.toList_append, String.toList_append, toList_onChars,
    toList_onChars]
  exact List.filter_append ..

/-- Whatever carriage returns are put or dropped, the same is left when they are dropped. -/
theorem reconciles_stripped :
    (Respelling.returns pos hzero hmono f hf).Reconciles .stripped .stripped := by
  refine .of_texts rfl (fun g tail _ => ?_) fun t => ?_
  · have hcomment (t : String) : onChars stripped (onChars f t) = onChars stripped t := by
      rw [← String.toList_inj, toList_onChars, toList_onChars, toList_onChars, hf]
    have hgroup : onChars stripped (g.respelled (.returns pos hzero hmono f hf)).text =
        onChars stripped g.text := by
      rw [onChars_stripped_text, onChars_stripped_text]
      congr 1
      exact List.map_map.trans (List.map_congr_left fun c _ => hcomment c.text)
    show onChars stripped _ = onChars stripped _
    rw [onChars_stripped_append, onChars_stripped_append, hgroup]
  · show onRaw stripped (onRaw f t) = onRaw stripped t
    rw [onRaw_onRaw hf]
    exact congrArg (onRaw · t) (funext hf)

/-- Sources whose carriage returns are dropped have the texts that are left when they are dropped. -/
theorem reconciles_none_stripped :
    (Respelling.returns pos hzero hmono stripped keepsRest_stripped).Reconciles .none .stripped := by
  refine .of_texts rfl (fun g tail htail => ?_) fun t => rfl
  have htail : onChars stripped tail = tail := by rcases htail with rfl | rfl <;> rfl
  show CommentGroup.text _ ++ tail = onChars stripped (g.text ++ tail)
  rw [onChars_stripped_append, onChars_stripped_text, htail, CommentGroup.text_respelled]
  rfl

/-- Sources that are only moved have the texts that they had. -/
theorem reconciles_none :
    (Respelling.returns pos hzero hmono id keepsRest_id).Reconciles .none .none := by
  have hid (t : String) : onChars id t = t := String.ofList_toList
  refine .of_texts rfl (fun g tail _ => ?_) fun t => ?_
  · have hgroup : (g.respelled (.returns pos hzero hmono id keepsRest_id)).text = g.text := by
      rw [CommentGroup.text_respelled]
      exact congrArg ("\n".intercalate ·) (List.map_congr_left fun c _ => hid c.text)
    rw [hgroup]
  · show onRaw id t = t
    cases h : rawBody? t with
    | none => exact onRaw_of_none h
    | some body => rw [onRaw_eq_onChars (fun _ _ => rfl) rfl (by rw [h]; rfl), hid]

end Reconciles

end Idl
