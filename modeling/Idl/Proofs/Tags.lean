/-
Idl/Proofs/Tags.lean

Tags are lists of pairs.

A tag is a text that is read anew whenever it is asked something, and written anew whenever it is
changed.  Reading undoes writing, whatever the values are (`Tag.pairs_ofPairs`), and whatever is read,
of any text, has keys that can be written again (`Tag.isTagKey_of_mem_pairs`).  So one change does to
the tag what it does to the list of its pairs (`TagOp.pairs_onTag`), and so do all changes in a row.

Main result: tags refine lists of pairs (`tag_run`).
-/
import Idl.Proofs.Token.Quoting
import Idl.Tag

namespace Idl

/-! ### Keys -/

/-- A byte that may stand in a key: one above the blank, but for the colon, the quote and DEL. -/
def IsTagKeyByte (b : UInt8) : Prop := 0x20 < b ∧ b ≠ 0x3a ∧ b ≠ 0x22 ∧ b ≠ 0x7f

/-- A key of pairs in tags, told by its bytes. -/
structure IsTagKey (key : String) : Prop where
  nonempty : key ≠ ""
  bytes : ∀ b ∈ bytesOf key, IsTagKeyByte b

/-- The byte of a number below 256 may stand in a key if the number says so. -/
theorem isTagKeyByte_ofNat {n : Nat} (hn : n < 256) :
    IsTagKeyByte (UInt8.ofNat n) ↔ 0x20 < n ∧ n ≠ 0x3a ∧ n ≠ 0x22 ∧ n ≠ 0x7f := by
  have hvalue : (UInt8.ofNat n).toNat = n := (UInt8.toNat_ofNat').trans (Nat.mod_eq_of_lt hn)
  unfold IsTagKeyByte
  rw [UInt8.lt_iff_toNat_lt, ne_eq, ne_eq, ne_eq, ← UInt8.toNat_inj, ← UInt8.toNat_inj,
    ← UInt8.toNat_inj, hvalue]
  rfl

/-- The characters of keys are those all bytes of which may stand in keys. -/
theorem isTagKeyChar_iff (c : Char) :
    isTagKeyChar c = true ↔ ∀ b ∈ String.utf8EncodeChar c, IsTagKeyByte b := by
  have hchar : isTagKeyChar c = true ↔
      0x20 < c.toNat ∧ c.toNat ≠ 0x3a ∧ c.toNat ≠ 0x22 ∧ c.toNat ≠ 0x7f := by
    have hne (d : Char) : c ≠ d ↔ c.toNat ≠ d.toNat := not_congr Char.toNat_inj.symm
    simp only [isTagKeyChar, Bool.and_eq_true, decide_eq_true_eq, bne_iff_ne, hne, and_assoc]
    rfl
  -- all bytes of a character that takes more than one are large
  have hlarge {n : Nat} (hn : 0x80 ≤ n) (hlt : n < 256) : IsTagKeyByte (UInt8.ofNat n) :=
    (isTagKeyByte_ofNat hlt).2 (by omega)
  have hval : c.val.toNat = c.toNat := rfl
  have hvalid : c.toNat < 0x110000 := by
    rcases c.valid with h | h
    · exact Nat.lt_trans h (by decide)
    · exact h.2
  rw [hchar]
  unfold String.utf8EncodeChar
  rw [hval]
  dsimp only
  split
  · rw [List.forall_mem_singleton]
    exact (isTagKeyByte_ofNat (by omega)).symm
  all_goals refine iff_of_true (by omega) ?_
  split
  · simp only [List.forall_mem_cons]
    exact ⟨hlarge (by omega) (by omega), hlarge (by omega) (by omega), List.forall_mem_nil _⟩
  split
  · simp only [List.forall_mem_cons]
    exact ⟨hlarge (by omega) (by omega), hlarge (by omega) (by omega),
      hlarge (by omega) (by omega), List.forall_mem_nil _⟩
  · simp only [List.forall_mem_cons]
    exact ⟨hlarge (by omega) (by omega), hlarge (by omega) (by omega),
      hlarge (by omega) (by omega), hlarge (by omega) (by omega), List.forall_mem_nil _⟩

theorem isTagKey_iff (key : String) : IsTagKey key ↔
    key.toList ≠ [] ∧ ∀ c ∈ key.toList, isTagKeyChar c = true := by
  have hbytes : (∀ b ∈ bytesOf key, IsTagKeyByte b) ↔ ∀ c ∈ key.toList, isTagKeyChar c = true := by
    rw [bytesOf_eq, utf8]
    simp only [isTagKeyChar_iff, List.mem_flatMap]
    exact ⟨fun h c hc b hb => h b ⟨c, hc, hb⟩, fun h b ⟨c, hc, hb⟩ => h c hc b hb⟩
  have hempty : key ≠ "" ↔ key.toList ≠ [] := not_congr String.toList_eq_nil_iff.symm
  rw [← hbytes, ← hempty]
  exact ⟨fun h => ⟨h.nonempty, h.bytes⟩, fun h => ⟨h.1, h.2⟩⟩

instance (key : String) : Decidable (IsTagKey key) :=
  decidable_of_iff (key.toList ≠ [] ∧ key.toList.all isTagKeyChar = true)
    ((isTagKey_iff key).trans (and_congr_right' List.all_eq_true.symm)).symm

/-! ### Values -/

theorem closingQuote?_plain {c : Char} (hquote : c ≠ '"') (hbackslash : c ≠ '\\') (cs : List Char) :
    closingQuote? (c :: cs) = (closingQuote? cs).map (· + 1) := by
  rw [closingQuote?]
  · exact hquote
  · exact fun h => absurd h hbackslash
  · exact fun _ _ h => absurd h hbackslash

theorem closingQuote?_escape (c : Char) (cs : List Char) :
    closingQuote? ('\\' :: c :: cs) = (closingQuote? cs).map (· + 2) := rfl

/-- Digits do not close a value. -/
theorem closingQuote?_digits {ds : List Char} (h : ∀ d ∈ ds, isDigitIn 16 d = true)
    (cs : List Char) : closingQuote? (ds ++ cs) = (closingQuote? cs).map (· + ds.length) := by
  induction ds with
  | nil => exact Option.map_id'.symm
  | cons d ds ih =>
    obtain ⟨hd, hds⟩ := List.forall_mem_cons.1 h
    have hquote : d ≠ '"' := fun heq => absurd (heq ▸ hd) (by decide)
    have hbackslash : d ≠ '\\' := fun heq => absurd (heq ▸ hd) (by decide)
    rw [List.cons_append, closingQuote?_plain hquote hbackslash, ih hds, Option.map_map]
    rfl

/-- Neither does a quoted character. -/
theorem closingQuote?_quotedChar (c : Char) (cs : List Char) :
    closingQuote? (quotedChar c ++ cs) = (closingQuote? cs).map (· + (quotedChar c).length) := by
  cases quotedForm c with
  | plain hwritten hplain =>
    simp only [List.mem_cons, List.not_mem_nil, or_false, not_or] at hplain
    rw [hwritten]
    exact closingQuote?_plain hplain.1 hplain.2.1 cs
  | escape d ds p hwritten hline hdigits hread hbytes =>
    rw [hwritten, List.cons_append, List.cons_append, closingQuote?_escape,
      closingQuote?_digits hdigits, Option.map_map]
    rfl

/-- A quoted value is closed by its last quote. -/
theorem closingQuote?_quoted (vs cs : List Char) :
    closingQuote? (vs.flatMap quotedChar ++ '"' :: cs) =
      some ((vs.flatMap quotedChar).length + 1) := by
  induction vs with
  | nil => rfl
  | cons v vs ih =>
    rw [List.flatMap_cons, List.append_assoc, closingQuote?_quotedChar, ih, Option.map_some,
      List.length_append, Nat.add_right_comm, Nat.add_comm (vs.flatMap quotedChar).length]

/-! ### Reading what is written -/

theorem not_isTagBlank {c : Char} (h : isTagKeyChar c = true) : isTagBlank c = false := by
  by_contra hblank
  simp only [isTagBlank, Bool.not_eq_false, Bool.or_eq_true, beq_iff_eq] at hblank
  rcases hblank with rfl | rfl <;> exact absurd h (by decide)

theorem toList_tagPairText (p : String × String) :
    (tagPairText p).toList = p.1.toList ++ ':' :: (quote p.2).toList := by
  simp [tagPairText]

/-- Blanks do not belong to a key, and neither does the colon behind them. -/
theorem isTagKeyChar_head {before : List Char} (hbefore : ∀ c ∈ before, isTagBlank c = true)
    (cs : List Char) : (before ++ ':' :: cs).takeWhile isTagKeyChar = [] := by
  cases before with
  | nil => rfl
  | cons b before =>
    have hkey : ¬ isTagKeyChar b = true := fun hkey =>
      absurd (hbefore b List.mem_cons_self) (by rw [not_isTagBlank hkey]; exact Bool.false_ne_true)
    rw [List.cons_append, List.takeWhile_cons_of_neg hkey]

/-- Blanks in front of a pair are skipped. -/
theorem RawPair.read?_blanks {bs : List Char} (h : ∀ c ∈ bs, isTagBlank c = true)
    (cs : List Char) : read? (bs ++ cs) = read? cs := by
  rw [read?, read?, List.dropWhile_append_of_pos h]

/-- A pair is read up to its end, whatever blanks stand on both sides of the colon. -/
theorem RawPair.read?_spelled {key : String} (hkey : IsTagKey key) {before after : List Char}
    (hbefore : ∀ c ∈ before, isTagBlank c = true) (hafter : ∀ c ∈ after, isTagBlank c = true)
    (value : String) (cs : List Char) :
    read? (key.toList ++ (before ++ ':' :: (after ++ ((quote value).toList ++ cs)))) =
      some ⟨key.toList, (quote value).toList, cs⟩ := by
  obtain ⟨hne, hall⟩ := (isTagKey_iff key).1 hkey
  obtain ⟨k, ks, hk⟩ := List.exists_cons_of_ne_nil hne
  have hvalue := closingQuote?_quoted value.toList cs
  generalize hbody : value.toList.flatMap quotedChar = body at hvalue
  have hquote : (quote value).toList = '"' :: (body ++ ['"']) := hbody ▸ toList_quote value
  have htext : (quote value).toList ++ cs = '"' :: (body ++ '"' :: cs) := by simp [hquote]
  rw [htext]
  -- the key ends at the blanks in front of the colon, or at the colon
  have hends := isTagKeyChar_head hbefore (after ++ '"' :: (body ++ '"' :: cs))
  have hcolon : (before ++ ':' :: (after ++ '"' :: (body ++ '"' :: cs))).dropWhile isTagBlank =
      ':' :: (after ++ '"' :: (body ++ '"' :: cs)) := List.dropWhile_append_of_pos hbefore
  have hopening : (after ++ '"' :: (body ++ '"' :: cs)).dropWhile isTagBlank =
      '"' :: (body ++ '"' :: cs) := List.dropWhile_append_of_pos hafter
  have hlength : ¬ (before ++ ':' :: (after ++ '"' :: (body ++ '"' :: cs))).length ≤ 1 := by
    simp only [List.length_append, List.length_cons]
    omega
  generalize before ++ ':' :: (after ++ '"' :: (body ++ '"' :: cs)) = tail at *
  have hblank : (key.toList ++ tail).dropWhile isTagBlank = key.toList ++ tail := by
    have hfirst : isTagBlank k = false := not_isTagBlank (hall k (hk ▸ List.mem_cons_self))
    rw [hk, List.cons_append]
    exact List.dropWhile_cons_of_neg (by rw [hfirst]; exact Bool.false_ne_true)
  have htaken : (key.toList ++ tail).takeWhile isTagKeyChar = key.toList := by
    rw [List.takeWhile_append_of_pos hall, hends, List.append_nil]
  have hbehind : (key.toList ++ tail).dropWhile isTagKeyChar = tail := by
    have hsplit := List.takeWhile_append_dropWhile (p := isTagKeyChar) (l := key.toList ++ tail)
    rw [htaken] at hsplit
    exact List.append_cancel_left hsplit
  have hgoes : (key.toList.isEmpty || decide (tail.length ≤ 1)) = false := by
    rw [hk, List.isEmpty_cons, Bool.false_or, decide_eq_false_iff_not]
    exact hlength
  -- the value ends at its own quote, and everything behind it is left
  have htake : (body ++ '"' :: cs).take (body.length + 1) = body ++ ['"'] := by
    rw [List.append_cons]
    exact List.take_left' List.length_append
  have hdrop : (body ++ '"' :: cs).drop (body.length + 1) = cs := by
    rw [List.append_cons]
    exact List.drop_left' List.length_append
  rw [read?]
  simp only [hblank, htaken, hbehind, hgoes, hcolon, hopening, Bool.false_eq_true, if_false]
  rw [hvalue, Option.map_some, htake, hdrop, hquote]

theorem tagPairs_of_none {cs : List Char} (h : RawPair.read? cs = none) : tagPairs cs = [] := by
  rw [tagPairs]
  split
  · rfl
  · next p hp => cases h.symm.trans hp

/-- What is read of a text is its first pair, unless the value is malformed, and what is read of the
rest. -/
theorem tagPairs_of_read {cs : List Char} {p : RawPair} (h : RawPair.read? cs = some p) :
    tagPairs cs =
      ((unquote? (String.ofList p.value)).map (String.ofList p.key, ·)).toList ++ tagPairs p.rest := by
  rw [tagPairs]
  split
  · next hnone => cases h.symm.trans hnone
  · next q hq =>
    obtain rfl : p = q := Option.some.inj (h.symm.trans hq)
    cases unquote? (String.ofList p.value) with
    | none => rfl
    | some value => rfl

/-- Blanks in front of a text are skipped. -/
theorem tagPairs_blanks {bs : List Char} (hbs : ∀ c ∈ bs, isTagBlank c = true) (cs : List Char) :
    tagPairs (bs ++ cs) = tagPairs cs := by
  have hread := RawPair.read?_blanks hbs cs
  cases h : RawPair.read? cs with
  | none => rw [tagPairs_of_none h, tagPairs_of_none (hread.trans h)]
  | some p => rw [tagPairs_of_read h, tagPairs_of_read (hread.trans h)]

theorem tagPairs_blank (cs : List Char) : tagPairs (' ' :: cs) = tagPairs cs :=
  tagPairs_blanks (List.forall_mem_singleton.2 rfl) cs

/-- A pair that is spelled with a key is the first one that is read. -/
theorem tagPairs_spelled {key : String} (hkey : IsTagKey key) {before after : List Char}
    (hbefore : ∀ c ∈ before, isTagBlank c = true) (hafter : ∀ c ∈ after, isTagBlank c = true)
    (value : String) (cs : List Char) :
    tagPairs (key.toList ++ (before ++ ':' :: (after ++ ((quote value).toList ++ cs)))) =
      (key, value) :: tagPairs cs := by
  have hkey' : String.ofList key.toList = key := String.ofList_toList
  have hvalue : unquote? (String.ofList (quote value).toList) = some value := by
    rw [String.ofList_toList]
    exact unquote?_quote value
  rw [tagPairs_of_read (RawPair.read?_spelled hkey hbefore hafter value cs)]
  dsimp only
  rw [hkey', hvalue]
  rfl

/-- A pair that is written is the first one that is read. -/
theorem tagPairs_pair {p : String × String} (hkey : IsTagKey p.1) (cs : List Char) :
    tagPairs ((tagPairText p).toList ++ cs) = p :: tagPairs cs := by
  have hspelled := tagPairs_spelled hkey (List.forall_mem_nil _) (List.forall_mem_nil _) p.2 cs
  rw [List.nil_append, List.nil_append] at hspelled
  rw [toList_tagPairText, List.append_assoc, List.cons_append]
  exact hspelled

/-- **Reading undoes writing**, whatever the values are. -/
theorem Tag.pairs_ofPairs {ps : List (String × String)} (h : ∀ p ∈ ps, IsTagKey p.1) :
    (ofPairs ps).pairs = ps := by
  have hnil : tagPairs [] = [] := tagPairs_of_none rfl
  unfold pairs ofPairs
  induction ps with
  | nil => exact hnil
  | cons p ps ih =>
    obtain ⟨hp, hps⟩ := List.forall_mem_cons.1 h
    -- behind a pair there is a blank, unless it is the last one
    cases ps with
    | nil =>
      have hread := tagPairs_pair hp []
      rw [List.append_nil, hnil] at hread
      exact hread
    | cons q qs =>
      have htext : (" ".intercalate ((p :: q :: qs).map tagPairText)).toList =
          (tagPairText p).toList ++ ' ' :: (" ".intercalate ((q :: qs).map tagPairText)).toList := by
        simp
      dsimp only at ih ⊢
      rw [htext, tagPairs_pair hp, tagPairs_blank, ih hps]

/-! ### Keys that are read -/

theorem RawPair.isTagKey_of_read? {cs : List Char} {p : RawPair} (h : read? cs = some p) :
    IsTagKey (String.ofList p.key) := by
  simp only [read?] at h
  generalize cs.dropWhile isTagBlank = ds at h
  split at h
  · cases h
  · next hgoes =>
    have hkey : p.key = ds.takeWhile isTagKeyChar := by
      split at h
      · split at h
        · obtain ⟨n, -, rfl⟩ := Option.map_eq_some_iff.1 h
          rfl
        · cases h
      · cases h
    rw [isTagKey_iff, String.toList_ofList, hkey]
    constructor
    · intro hnil
      exact hgoes (by rw [hnil]; rfl)
    · exact fun c hc => List.mem_takeWhile_imp hc

/-- Whatever is read of a text has keys that can be written. -/
theorem Tag.isTagKey_of_mem_pairs (t : Tag) : ∀ p ∈ t.pairs, IsTagKey p.1 := by
  unfold pairs
  -- one pair after the other, from the front of the text
  fun_induction tagPairs t.text.toList with
  | case1 cs hnone => exact List.forall_mem_nil _
  | case2 cs p hread _ value hvalue ih =>
    exact List.forall_mem_cons.2 ⟨RawPair.isTagKey_of_read? hread, ih⟩
  | case3 cs p hread _ hvalue ih => exact ih

/-! ### Lists of pairs -/

section Pairs

variable (key value : String) (ps : List (String × String))

/-- The place of the first pair with a key. -/
def firstNamed? : Option Nat := ps.findIdx? (·.1 = key)

/-- The value of the first pair with a key. -/
def valueOfFirst? : Option String := (firstNamed? key ps).bind fun i => ps[i]?.map (·.2)

/-- The value of the first pair with a key is replaced; where there is none, a pair is put behind all
others. -/
def setFirst : List (String × String) :=
  match firstNamed? key ps with
  | some i => ps.set i (key, value)
  | none => ps ++ [(key, value)]

/-- The first pair with a key is removed. -/
def eraseFirst : List (String × String) :=
  match firstNamed? key ps with
  | some i => ps.eraseIdx i
  | none => ps

theorem firstNamed?_cons (p : String × String) : firstNamed? key (p :: ps) =
    if p.1 = key then some 0 else (firstNamed? key ps).map (· + 1) := by
  unfold firstNamed?
  rw [List.findIdx?_cons]
  simp only [decide_eq_true_eq]

theorem Tag.setPair_eq : setPair key value ps = setFirst key value ps := by
  induction ps with
  | nil => rfl
  | cons p ps ih =>
    rw [setPair, setFirst, firstNamed?_cons]
    by_cases hp : p.1 = key
    · rw [if_pos hp, if_pos hp]
      rfl
    · rw [if_neg hp, if_neg hp, ih, setFirst]
      cases firstNamed? key ps <;> rfl

theorem eraseP_eq : ps.eraseP (·.1 = key) = eraseFirst key ps := by
  rw [List.eraseP_eq_eraseIdx, eraseFirst, firstNamed?]
  cases ps.findIdx? (·.1 = key) <;> rfl

theorem find?_eq_valueOfFirst? : (ps.find? (·.1 = key)).map (·.2) = valueOfFirst? key ps := by
  induction ps with
  | nil => rfl
  | cons p ps ih =>
    rw [valueOfFirst?, firstNamed?_cons]
    by_cases hp : p.1 = key
    · rw [if_pos hp, List.find?_cons_of_pos (by simpa using hp)]
      rfl
    · rw [if_neg hp, List.find?_cons_of_neg (by simpa using hp), ih, valueOfFirst?]
      cases firstNamed? key ps <;> rfl

/-- No other keys come in. -/
theorem fst_of_mem_setFirst {p : String × String} (h : p ∈ setFirst key value ps) :
    p ∈ ps ∨ p = (key, value) := by
  unfold setFirst at h
  split at h
  · exact List.mem_or_eq_of_mem_set h
  · exact (List.mem_append.1 h).imp_right List.mem_singleton.1

theorem eraseFirst_subset : eraseFirst key ps ⊆ ps := by
  unfold eraseFirst
  split
  · exact (List.eraseIdx_sublist ..).subset
  · exact List.Subset.refl ps

end Pairs

/-! ### Changes -/

/-- A change of a tag. -/
inductive TagOp where
  | set (key value : String)
  | delete (key : String)
  deriving DecidableEq, Repr

namespace TagOp

/-- The key that the change is about. -/
def key : TagOp → String
  | set key _ => key
  | delete key => key

/-- What the change does to a tag. -/
def onTag (t : Tag) : TagOp → Tag
  | set key value => t.set key value
  | delete key => t.delete key

/-- What the change does to a list of pairs. -/
def onPairs (ps : List (String × String)) : TagOp → List (String × String)
  | set key value => setFirst key value ps
  | delete key => eraseFirst key ps

variable {op : TagOp} (h : IsTagKey op.key) (t : Tag)
include h

/-- Changes of lists keep keys that can be written. -/
theorem isTagKey_onPairs {ps : List (String × String)} (hps : ∀ p ∈ ps, IsTagKey p.1) :
    ∀ p ∈ onPairs ps op, IsTagKey p.1 := by
  intro p hp
  cases op with
  | set key value =>
    rcases fst_of_mem_setFirst key value ps hp with hp | rfl
    · exact hps p hp
    · exact h
  | delete key => exact hps p (eraseFirst_subset key ps hp)

omit h in
/-- A changed tag is written anew. -/
theorem onTag_eq : onTag t op = .ofPairs (onPairs t.pairs op) := by
  cases op with
  | set key value => exact congrArg Tag.ofPairs (Tag.setPair_eq key value t.pairs)
  | delete key => exact congrArg Tag.ofPairs (eraseP_eq key t.pairs)

/-- **One change** does to the tag what it does to the list of its pairs. -/
theorem pairs_onTag : (onTag t op).pairs = onPairs t.pairs op := by
  rw [onTag_eq]
  exact Tag.pairs_ofPairs (isTagKey_onPairs h t.isTagKey_of_mem_pairs)

end TagOp

/-- **All changes in a row** do to the tag what they do to the list of its pairs. -/
theorem pairs_foldl_onTag {ops : List TagOp} (h : ∀ op ∈ ops, IsTagKey op.key) (t : Tag) :
    (ops.foldl TagOp.onTag t).pairs = ops.foldl TagOp.onPairs t.pairs := by
  induction ops generalizing t with
  | nil => rfl
  | cons op ops ih =>
    obtain ⟨hop, hops⟩ := List.forall_mem_cons.1 h
    rw [List.foldl_cons, List.foldl_cons, ih hops, TagOp.pairs_onTag hop]

/-- After a change the text is that of the pairs, with single blanks between them. -/
theorem text_foldl_onTag {ops : List TagOp} (h : ∀ op ∈ ops, IsTagKey op.key) (hne : ops ≠ [])
    (t : Tag) : ops.foldl TagOp.onTag t = .ofPairs (ops.foldl TagOp.onTag t).pairs := by
  -- only the last change matters, since it writes the whole tag anew
  obtain ⟨before, op, rfl⟩ := (List.eq_nil_or_concat ops).resolve_left hne
  have hop : IsTagKey op.key := h op (by simp)
  rw [List.concat_eq_append, List.foldl_append]
  show TagOp.onTag _ op = .ofPairs (TagOp.onTag _ op).pairs
  rw [TagOp.pairs_onTag hop]
  exact TagOp.onTag_eq _

/-- What a tag says about a key is what the first pair with the key says. -/
theorem Tag.answers {key : String} (hkey : IsTagKey key) (t : Tag) :
    t.lookup? key = valueOfFirst? key t.pairs ∧
      t.get key = (valueOfFirst? key t.pairs).getD "" ∧
      t.hasKey key = (firstNamed? key t.pairs).isSome := by
  have hfound : t.lookup? key = (t.pairs.find? (·.1 = key)).map (·.2) := by
    have hne : key.isEmpty = false := by
      rw [Bool.eq_false_iff]
      exact fun h => hkey.nonempty (String.isEmpty_iff.1 h)
    unfold lookup?
    rw [hne]
    rfl
  have hlookup : t.lookup? key = valueOfFirst? key t.pairs :=
    hfound.trans (find?_eq_valueOfFirst? key t.pairs)
  refine ⟨hlookup, congrArg (Option.getD · "") hlookup, ?_⟩
  rw [hasKey, hfound, Option.isSome_map, firstNamed?, List.findIdx?_isSome, Bool.eq_iff_iff,
    List.find?_isSome, List.any_eq_true]

/-- Tags refine lists of pairs: whatever the text of a tag is, every change sets or removes the first
pair with a key in the list of its pairs, a changed tag consists of its pairs and single blanks between
them, and what is looked up is what the first pair with the key says. -/
theorem tag_run (t : Tag) (ops : List TagOp) (h : ∀ op ∈ ops, IsTagKey op.key) :
    (ops.foldl TagOp.onTag t).pairs = ops.foldl TagOp.onPairs t.pairs ∧
      (ops ≠ [] → (ops.foldl TagOp.onTag t).text =
        " ".intercalate ((ops.foldl TagOp.onPairs t.pairs).map fun p => p.1 ++ ":" ++ quote p.2)) ∧
      ∀ key, IsTagKey key →
        (ops.foldl TagOp.onTag t).lookup? key =
            valueOfFirst? key (ops.foldl TagOp.onPairs t.pairs) ∧
          (ops.foldl TagOp.onTag t).get key =
            (valueOfFirst? key (ops.foldl TagOp.onPairs t.pairs)).getD "" ∧
          (ops.foldl TagOp.onTag t).hasKey key =
            (firstNamed? key (ops.foldl TagOp.onPairs t.pairs)).isSome := by
  have hpairs := pairs_foldl_onTag h t
  refine ⟨hpairs, fun hne => ?_, fun key hkey => ?_⟩
  · have htext := congrArg Tag.text (text_foldl_onTag h hne t)
    rw [hpairs] at htext
    exact htext
  · rw [← hpairs]
    exact Tag.answers hkey _

/-- A malformed tag with a repeated key, a value that is no literal, and text behind the last pair. -/
theorem tag_run_malformed :
    let t : Tag := ⟨"a:\"1\"  b:\"\\q\" a : \"2\" c:\"3\" d:"⟩
    let ops : List TagOp := [.set "a" "x\n\"\\é\x7f", .delete "c", .set "k" ""]
    (∀ op ∈ ops, IsTagKey op.key) ∧ t.pairs = [("a", "1"), ("a", "2"), ("c", "3")] ∧
      (ops.foldl TagOp.onTag t).pairs = [("a", "x\n\"\\é\x7f"), ("a", "2"), ("k", "")] ∧
      (ops.foldl TagOp.onTag t).get "a" = "x\n\"\\é\x7f" := by
  intro t ops
  have hkeys : ∀ op ∈ ops, IsTagKey op.key := by decide
  have hpairs : t.pairs = [("a", "1"), ("a", "2"), ("c", "3")] := by with_unfolding_all decide
  obtain ⟨hrun, -, hanswers⟩ := tag_run t ops hkeys
  obtain ⟨-, hget, -⟩ := hanswers "a" (by decide)
  rw [hpairs] at hrun hget
  exact ⟨hkeys, hpairs, hrun, hget⟩

end Idl
