/-
Idl/Proofs/Json/Reading.lean

Reading undoes writing.

The text of a written value is cut into the tokens of the value (`cuts_prettyChars`), whatever
follows it as long as no number goes on there.  On these tokens the machine puts the value into the
innermost frame (`reads`), and goes on with the tokens behind them.  So a written value comes back
from its text (`parse?_pretty`).
-/
import Idl.Proofs.Json.Written
import Mathlib.Tactic.IntervalCases

namespace Idl

namespace Json

/-! ### The tokens of a value -/

mutual

/-- The tokens that a value is written with. -/
def tokens : Json → List JsonToken
  | .null => [.null]
  | .bool b => [.bool b]
  | .number spelling => [.number spelling]
  | .text t => [.text t]
  | .array [] => [.openArray, .closeArray]
  | .array (x :: xs) => .openArray :: x.tokens ++ itemTokens xs ++ [.closeArray]
  | .object [] => [.openObject, .closeObject]
  | .object ((k, v) :: ms) =>
    .openObject :: .text k :: .colon :: v.tokens ++ memberTokens ms ++ [.closeObject]

/-- The tokens of the items of an array behind the first. -/
def itemTokens : List Json → List JsonToken
  | [] => []
  | x :: xs => .comma :: x.tokens ++ itemTokens xs

/-- The tokens of the members of an object behind the first. -/
def memberTokens : List (JsonText × Json) → List JsonToken
  | [] => []
  | (k, v) :: ms => .comma :: .text k :: .colon :: v.tokens ++ memberTokens ms

end

end Json

/-! ### Cutting a text into tokens -/

namespace JsonToken

theorem ofChars?_cons {c : Char} {cs : List Char} {t : JsonToken} {n : Nat}
    (hblank : isBlank c = false) (h : scan? c cs = some (t, n)) :
    ofChars? (c :: cs) = (ofChars? (cs.drop n)).map (t :: ·) := by
  rw [ofChars?, hblank, h]
  rfl

theorem ofChars?_blank {c : Char} {cs : List Char} (h : isBlank c = true) :
    ofChars? (c :: cs) = ofChars? cs := by
  rw [ofChars?, if_pos h]

theorem ofChars?_lineBreak (depth : Nat) (cs : List Char) :
    ofChars? (Json.lineBreak depth ++ cs) = ofChars? cs := by
  have hblanks (n : Nat) : ofChars? (List.replicate n ' ' ++ cs) = ofChars? cs := by
    induction n with
    | zero => rfl
    | succ n ih => rw [List.replicate_succ, List.cons_append, ofChars?_blank rfl, ih]
  rw [Json.lineBreak, List.cons_append, ofChars?_blank rfl, hblanks]

theorem ofChars?_number (n : Nat) {cs : List Char} (h : EndsNumber cs) :
    ofChars? ((toString n).toList ++ cs) = (ofChars? cs).map (.number (toString n) :: ·) := by
  have hnumber := numberLength?_toString n h
  obtain ⟨c, ds, hds⟩ := List.exists_cons_of_ne_nil (toString_ne_nil n)
  have hc : c.isDigit = true := isDigit_of_mem_toString (hds ▸ List.mem_cons_self)
  -- a digit is none of the characters that other tokens start with
  have hne (d : Char) (hd : d.isDigit = false) : c ≠ d := by
    rintro rfl
    exact absurd hc (by simp [hd])
  have hblank : isBlank c = false := by
    simp [isBlank, hne ' ' rfl, hne '\n' rfl, hne '\t' rfl, hne '\r' rfl]
  have hscan : scan? c (ds ++ cs) = some (.number (toString n), ds.length) := by
    rw [hds, List.cons_append] at hnumber
    unfold scan?
    rw [if_neg (hne '[' rfl), if_neg (hne ']' rfl), if_neg (hne _ rfl), if_neg (hne _ rfl),
      if_neg (hne ',' rfl), if_neg (hne ':' rfl), if_neg (hne '"' rfl), if_neg (hne 'n' rfl),
      if_neg (hne 't' rfl), if_neg (hne 'f' rfl), hnumber, Option.map_some, List.length_cons,
      ← List.cons_append, List.take_left' (List.length_cons ..), ← hds, String.ofList_toList]
    rfl
  rw [hds, List.cons_append, ofChars?_cons hblank hscan, List.drop_left]

/-! ### Strings -/

/-- The escapes of control characters by number. -/
theorem read?_control {n : Nat} (h : n < 32) (cs : List Char) :
    Escape.read? ('u' :: (hexPadded 4 n ++ cs)) = some ⟨5, some (Char.ofNat n)⟩ := by
  have hdigits : leadingDigits 16 4 (hexPadded 4 n ++ cs) = [0, 0, n / 16, n % 16] := by
    interval_cases n <;> rfl
  have hnumber : fourHexDigits? (hexPadded 4 n ++ cs) = some n := by
    have hvalue : ofDigitValues 16 [0, 0, n / 16, n % 16] = n := by
      show (((0 * 16 + 0) * 16 + 0) * 16 + n / 16) * 16 + n % 16 = n
      omega
    simp only [fourHexDigits?, hdigits, hvalue]
    rfl
  have hhigh : ¬ (0xd800 ≤ n && n < 0xdc00) = true := by simp; omega
  have hlow : ¬ (0xdc00 ≤ n && n < 0xe000) = true := by simp; omega
  show Escape.readNumber? _ = _
  rw [Escape.readNumber?, hnumber, Option.map_some, if_neg hhigh, if_neg hlow]

theorem stringRest?_escape {cs : List Char} {e : Escape} (h : Escape.read? cs = some e) :
    stringRest? ('\\' :: cs) =
      (stringRest? (cs.drop e.width)).map (·.prepend e.char (1 + e.width)) := by
  rw [stringRest?, if_neg (by decide), if_neg (by decide), if_pos rfl, h]

theorem stringRest?_short {x c : Char} {cs : List Char}
    (h : Escape.read? (x :: cs) = some ⟨1, some c⟩) :
    stringRest? (['\\', x] ++ cs) = (stringRest? cs).map (·.prepend (some c) 2) :=
  stringRest?_escape h

/-- What a character is written as is read as that character. -/
theorem stringRest?_escapedChar (c : Char) (cs : List Char) :
    stringRest? (Json.escapedChar c ++ cs) =
      (stringRest? cs).map (·.prepend (some c) (Json.escapedChar c).length) := by
  unfold Json.escapedChar
  split
  · next h => subst h; exact stringRest?_short rfl
  split
  · next h => subst h; exact stringRest?_short rfl
  split
  · next h => subst h; exact stringRest?_short rfl
  split
  · next h => subst h; exact stringRest?_short rfl
  split
  · next h => subst h; exact stringRest?_short rfl
  split
  · next h => subst h; exact stringRest?_short rfl
  split
  · next h => subst h; exact stringRest?_short rfl
  split
  · next h =>
    have hread := stringRest?_escape (read?_control h cs)
    rw [Char.ofNat_toNat] at hread
    simpa using hread
  · next hquote hbackslash _ _ _ _ _ hcontrol =>
    rw [List.singleton_append, stringRest?, if_neg hquote, if_neg hcontrol, if_neg hbackslash]
    rfl

theorem stringRest?_text (s cs : List Char) :
    stringRest? (s.flatMap Json.escapedChar ++ '"' :: cs) =
      some ⟨some s, (s.flatMap Json.escapedChar).length + 1⟩ := by
  induction s with
  | nil => rw [List.flatMap_nil, List.nil_append, stringRest?, if_pos rfl]; rfl
  | cons c s ih =>
    rw [List.flatMap_cons, List.append_assoc, stringRest?_escapedChar, ih]
    simp [StringRest.prepend, Nat.add_assoc]

theorem ofChars?_text (s : String) (cs : List Char) :
    ofChars? (Json.textChars (some s) ++ cs) = (ofChars? cs).map (.text (some s) :: ·) := by
  have hrest := stringRest?_text s.toList cs
  have hscan : scan? '"' (s.toList.flatMap Json.escapedChar ++ '"' :: cs) =
      some (.text (some s), (s.toList.flatMap Json.escapedChar).length + 1) := by
    unfold scan?
    rw [if_neg (by decide), if_neg (by decide), if_neg (by decide), if_neg (by decide),
      if_neg (by decide), if_neg (by decide), if_pos rfl, hrest, Option.map_some, Option.map_some,
      String.ofList_toList]
  have htext : Json.textChars (some s) ++ cs =
      '"' :: (s.toList.flatMap Json.escapedChar ++ '"' :: cs) :=
    List.append_assoc ('"' :: s.toList.flatMap Json.escapedChar) ['"'] cs
  rw [htext, ofChars?_cons rfl hscan, ← List.drop_drop, List.drop_left]
  rfl

/-! ### The text of a value -/

theorem endsNumber_lineBreak (depth : Nat) (cs : List Char) :
    EndsNumber (Json.lineBreak depth ++ cs) := by
  rintro c h
  obtain rfl := Option.some.inj h
  decide

theorem endsNumber_comma (cs : List Char) : EndsNumber (',' :: cs) := by
  rintro c h
  obtain rfl := Option.some.inj h
  decide

/-- Whatever comes behind an item, no number goes on with it. -/
theorem endsNumber_items (depth : Nat) (xs : List Json) {cs : List Char} (h : EndsNumber cs) :
    EndsNumber (Json.prettyItems depth xs ++ cs) := by
  cases xs with
  | nil => exact h
  | cons x xs => exact endsNumber_comma _

theorem endsNumber_members (depth : Nat) (ms : List (JsonText × Json)) {cs : List Char}
    (h : EndsNumber cs) : EndsNumber (Json.prettyMembers depth ms ++ cs) := by
  cases ms with
  | nil => exact h
  | cons m ms => exact endsNumber_comma _

/-- The character that a token is, for those that are one. -/
def mark? : JsonToken → Option Char
  | .openArray => some '['
  | .closeArray => some ']'
  | .openObject => some (Char.ofNat 0x7b)
  | .closeObject => some (Char.ofNat 0x7d)
  | .comma => some ','
  | .colon => some ':'
  | _ => none

theorem ofChars?_mark (t : JsonToken) {c : Char} (h : t.mark? = some c) (cs : List Char) :
    ofChars? (c :: cs) = (ofChars? cs).map (t :: ·) := by
  have hscan : isBlank c = false ∧ scan? c cs = some (t, 0) := by
    cases t <;> simp only [mark?, Option.some.injEq, reduceCtorEq] at h <;> subst h <;> exact ⟨rfl, rfl⟩
  exact ofChars?_cons hscan.1 hscan.2

theorem ofChars?_word {c : Char} {word : String} {t : JsonToken} (hblank : isBlank c = false)
    (hscan : ∀ cs, scan? c cs = word? word t cs) (cs : List Char) :
    ofChars? (c :: (word.toList ++ cs)) = (ofChars? cs).map (t :: ·) := by
  have hword : scan? c (word.toList ++ cs) = some (t, word.length) := by
    rw [hscan, word?, if_pos (List.isPrefixOf_iff_prefix.2 (List.prefix_append ..))]
  rw [ofChars?_cons hblank hword, ← String.length_toList, List.drop_left]

/-- A text is cut into tokens, and then what follows it. -/
def Cuts (text : List Char) (ts : List JsonToken) : Prop :=
  ∀ {cs}, EndsNumber cs → ofChars? (text ++ cs) = (ofChars? cs).map (ts ++ ·)

theorem cuts_items {depth : Nat} {xs : List Json}
    (h : ∀ x ∈ xs, Cuts (x.prettyChars depth) x.tokens) :
    Cuts (Json.prettyItems depth xs) (Json.itemTokens xs) := by
  intro cs hcs
  induction xs with
  | nil => simp [Json.prettyItems, Json.itemTokens]
  | cons x xs ih =>
    simp only [Json.prettyItems, Json.itemTokens, List.append_assoc, List.cons_append]
    rw [ofChars?_mark .comma rfl, ofChars?_lineBreak,
      h x List.mem_cons_self (endsNumber_items _ xs hcs),
      ih fun y hy => h y (List.mem_cons_of_mem _ hy)]
    simp [Function.comp_def]

theorem cuts_member {depth : Nat} {k : JsonText} {v : Json} (hk : k.isSome = true)
    (h : Cuts (v.prettyChars depth) v.tokens) :
    Cuts (Json.textChars k ++ ':' :: ' ' :: v.prettyChars depth) (.text k :: .colon :: v.tokens) := by
  intro cs hcs
  obtain ⟨s, rfl⟩ := Option.isSome_iff_exists.1 hk
  rw [List.append_assoc, ofChars?_text, List.cons_append, ofChars?_mark .colon rfl,
    List.cons_append, ofChars?_blank rfl, h hcs]
  simp [Function.comp_def]

theorem cuts_members {depth : Nat} {ms : List (JsonText × Json)} (hk : ∀ m ∈ ms, m.1.isSome = true)
    (h : ∀ m ∈ ms, Cuts (m.2.prettyChars depth) m.2.tokens) :
    Cuts (Json.prettyMembers depth ms) (Json.memberTokens ms) := by
  intro cs hcs
  induction ms with
  | nil => simp [Json.prettyMembers, Json.memberTokens]
  | cons m ms ih =>
    have hmember := cuts_member (hk m List.mem_cons_self) (h m List.mem_cons_self)
      (endsNumber_members depth ms hcs)
    rw [ih (fun y hy => hk y (List.mem_cons_of_mem _ hy)) fun y hy =>
      h y (List.mem_cons_of_mem _ hy)] at hmember
    simp only [Json.prettyMembers, Json.memberTokens, List.append_assoc, List.cons_append,
      List.nil_append] at hmember ⊢
    rw [ofChars?_mark .comma rfl, ofChars?_lineBreak, hmember]
    simp [Function.comp_def]

/-- A written value is cut into its tokens. -/
theorem cuts_prettyChars {j : Json} (h : j.Written) (depth : Nat) :
    Cuts (j.prettyChars depth) j.tokens := by
  induction h generalizing depth with
  | null =>
    intro cs hcs
    have htext : Json.null.prettyChars depth ++ cs = 'n' :: ("ull".toList ++ cs) := by
      simp [Json.prettyChars]
    rw [htext, ofChars?_word rfl fun _ => rfl]
    rfl
  | bool b =>
    intro cs hcs
    cases b with
    | false =>
      have htext : (Json.bool false).prettyChars depth ++ cs = 'f' :: ("alse".toList ++ cs) := by
        simp [Json.prettyChars]
      rw [htext, ofChars?_word rfl fun _ => rfl]
      rfl
    | true =>
      have htext : (Json.bool true).prettyChars depth ++ cs = 't' :: ("rue".toList ++ cs) := by
        simp [Json.prettyChars]
      rw [htext, ofChars?_word rfl fun _ => rfl]
      rfl
  | number h => exact fun hcs => ofChars?_number _ hcs
  | text s => exact fun _ => ofChars?_text s _
  | @array xs h ih =>
    intro cs hcs
    cases xs with
    | nil =>
      show ofChars? ('[' :: ']' :: cs) = _
      rw [ofChars?_mark .openArray rfl, ofChars?_mark .closeArray rfl, Option.map_map]
      rfl
    | cons x xs =>
      have hclose := endsNumber_lineBreak depth (']' :: cs)
      simp only [Json.prettyChars, Json.tokens, List.append_assoc, List.cons_append, List.nil_append]
      rw [ofChars?_mark .openArray rfl, ofChars?_lineBreak,
        ih x List.mem_cons_self _ (endsNumber_items _ xs hclose),
        cuts_items (fun y hy => ih y (List.mem_cons_of_mem _ hy) _) hclose, ofChars?_lineBreak,
        ofChars?_mark .closeArray rfl]
      simp [Function.comp_def]
  | @object ms hk h ih =>
    intro cs hcs
    cases ms with
    | nil =>
      show ofChars? (Char.ofNat 0x7b :: Char.ofNat 0x7d :: cs) = _
      rw [ofChars?_mark .openObject rfl, ofChars?_mark .closeObject rfl, Option.map_map]
      rfl
    | cons m ms =>
      have hclose := endsNumber_lineBreak depth (Char.ofNat 0x7d :: cs)
      have hmember := cuts_member (hk m List.mem_cons_self) (ih m List.mem_cons_self (depth + 1))
        (endsNumber_members (depth + 1) ms hclose)
      rw [cuts_members (fun y hy => hk y (List.mem_cons_of_mem _ hy))
        (fun y hy => ih y (List.mem_cons_of_mem _ hy) _) hclose] at hmember
      simp only [Json.prettyChars, Json.tokens, List.append_assoc, List.cons_append,
        List.nil_append] at hmember ⊢
      rw [ofChars?_mark .openObject rfl, ofChars?_lineBreak, hmember, ofChars?_lineBreak,
        ofChars?_mark .closeObject rfl]
      simp [Function.comp_def]

end JsonToken

/-! ### Putting tokens together -/

namespace JsonReader

/-- Where a value or the end of an array may come, a value does as where it has to come. -/
theorem step_itemOrClose {fs : List JsonFrame} {t : JsonToken} (h : t ≠ .closeArray) :
    step (.reading fs .itemOrClose) t = step (.reading fs .value) t := by
  cases t <;> first | rfl | exact absurd rfl h

/-- No value starts with the end of an array. -/
theorem tokens_head (j : Json) : ∃ t ts, j.tokens = t :: ts ∧ t ≠ .closeArray := by
  cases j with
  | array xs => cases xs <;> exact ⟨_, _, rfl, by decide⟩
  | object ms => cases ms <;> exact ⟨_, _, rfl, by decide⟩
  | _ => exact ⟨_, _, rfl, nofun⟩

/-- On the tokens of a value, the machine puts it into the innermost frame. -/
def Reads (j : Json) : Prop :=
  ∀ fs ts, (j.tokens ++ ts).foldlM step (.reading fs .value) =
    (put j fs).bind fun r => ts.foldlM step r

theorem reads_items {xs : List Json} (h : ∀ x ∈ xs, Reads x) (items : List Json)
    (fs : List JsonFrame) (ts : List JsonToken) :
    (Json.itemTokens xs ++ ts).foldlM step (.reading (.array items :: fs) .commaOrClose) =
      ts.foldlM step (.reading (.array (xs.reverse ++ items) :: fs) .commaOrClose) := by
  induction xs generalizing items with
  | nil => rfl
  | cons x xs ih =>
    rw [Json.itemTokens, List.cons_append, List.cons_append, List.append_assoc, List.foldlM_cons]
    show (x.tokens ++ _).foldlM step (.reading (.array items :: fs) .value) = _
    rw [h x List.mem_cons_self]
    show (Json.itemTokens xs ++ ts).foldlM step (.reading (.array (x :: items) :: fs) _) = _
    rw [ih fun y hy => h y (List.mem_cons_of_mem _ hy)]
    simp

theorem reads_members {ms : List (JsonText × Json)} (h : ∀ m ∈ ms, Reads m.2)
    (members : List (JsonText × Json)) (fs : List JsonFrame) (ts : List JsonToken) :
    (Json.memberTokens ms ++ ts).foldlM step (.reading (.object members :: fs) .commaOrClose) =
      ts.foldlM step (.reading (.object (ms.reverse ++ members) :: fs) .commaOrClose) := by
  induction ms generalizing members with
  | nil => rfl
  | cons m ms ih =>
    obtain ⟨k, v⟩ := m
    simp only [Json.memberTokens, List.cons_append, List.append_assoc, List.foldlM_cons]
    show (v.tokens ++ _).foldlM step (.reading (.member members k :: fs) .value) = _
    rw [h (k, v) List.mem_cons_self]
    show (Json.memberTokens ms ++ ts).foldlM step (.reading (.object ((k, v) :: members) :: fs) _) = _
    rw [ih fun y hy => h y (List.mem_cons_of_mem _ hy)]
    simp

theorem reads {j : Json} (h : j.Written) : Reads j := by
  induction h with
  | null => exact fun _ _ => rfl
  | bool b => exact fun _ _ => rfl
  | number h => exact fun _ _ => rfl
  | text s => exact fun _ _ => rfl
  | @array xs h ih =>
    intro fs ts
    cases xs with
    | nil => rfl
    | cons x xs =>
      obtain ⟨t, us, ht, hclose⟩ := tokens_head x
      have hx := ih x List.mem_cons_self (.array [] :: fs) (Json.itemTokens xs ++ .closeArray :: ts)
      rw [ht, List.cons_append, List.foldlM_cons, ← step_itemOrClose hclose, ← List.foldlM_cons,
        ← List.cons_append, ← ht] at hx
      simp only [Json.tokens, List.cons_append, List.append_assoc, List.nil_append]
      show (x.tokens ++ _).foldlM step (.reading (.array [] :: fs) .itemOrClose) = _
      rw [hx]
      show (Json.itemTokens xs ++ _).foldlM step (.reading (.array [x] :: fs) _) = _
      rw [reads_items fun y hy => ih y (List.mem_cons_of_mem _ hy), List.foldlM_cons]
      show (put (.array (xs.reverse ++ [x]).reverse) fs).bind _ = _
      simp
  | @object ms hk h ih =>
    intro fs ts
    cases ms with
    | nil => rfl
    | cons m ms =>
      obtain ⟨k, v⟩ := m
      simp only [Json.tokens, List.cons_append, List.append_assoc, List.nil_append]
      show (v.tokens ++ _).foldlM step (.reading (.member [] k :: fs) .value) = _
      rw [ih (k, v) List.mem_cons_self]
      show (Json.memberTokens ms ++ _).foldlM step (.reading (.object [(k, v)] :: fs) _) = _
      rw [reads_members fun y hy => ih y (List.mem_cons_of_mem _ hy), List.foldlM_cons]
      show (put (.object (ms.reverse ++ [(k, v)]).reverse) fs).bind _ = _
      simp

end JsonReader

/-- Reading undoes writing. -/
theorem Json.parse?_pretty {j : Json} (h : j.Written) : Json.parse? j.pretty = some j := by
  have hends : EndsNumber [] := by simp [EndsNumber]
  have htokens := JsonToken.cuts_prettyChars h 0 hends
  rw [List.append_nil] at htokens
  have hread := JsonReader.reads h [] []
  rw [List.append_nil] at hread
  rw [Json.parse?, Json.pretty, String.toList_ofList, htokens, JsonToken.ofChars?, Option.map_some,
    Option.bind_some, List.append_nil, Json.ofTokens?, hread]
  rfl

end Idl
