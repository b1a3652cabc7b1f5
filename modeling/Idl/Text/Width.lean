/-
Idl/Text/Width.lean

Bytes and sizes in bytes.  Positions, spans and columns of the language count the bytes that the
UTF-8 form of a text takes, so a list of characters is measured by the sum of their byte sizes.
-/

namespace Idl

/-- The number of bytes that the UTF-8 form of `cs` takes. -/
def byteWidth : List Char → Nat
  | [] => 0
  | c :: cs => c.utf8Size + byteWidth cs

@[simp] theorem byteWidth_nil : byteWidth [] = 0 := rfl

@[simp] theorem byteWidth_cons (c : Char) (cs : List Char) :
    byteWidth (c :: cs) = c.utf8Size + byteWidth cs := rfl

@[simp] theorem byteWidth_append (cs ds : List Char) :
    byteWidth (cs ++ ds) = byteWidth cs + byteWidth ds := by
  induction cs with
  | nil => simp
  | cons c cs ih => simp [ih, Nat.add_assoc]

/-- Taking and dropping the same number of characters splits the width. -/
theorem byteWidth_take_add_drop (n : Nat) (cs : List Char) :
    byteWidth (cs.take n) + byteWidth (cs.drop n) = byteWidth cs := by
  rw [← byteWidth_append, List.take_append_drop]

/-- Every character takes a byte at least. -/
theorem length_le_byteWidth (cs : List Char) : cs.length ≤ byteWidth cs := by
  induction cs with
  | nil => simp
  | cons c cs ih => have := c.utf8Size_pos; simp; omega

/-- The size of a text is the width of its characters. -/
theorem utf8ByteSize_eq (t : String) : t.utf8ByteSize = byteWidth t.toList := by
  have h (cs : List Char) : (String.ofList cs).utf8ByteSize = byteWidth cs := by
    induction cs with
    | nil => rfl
    | cons c cs ih =>
      have hcons : String.ofList (c :: cs) = String.singleton c ++ String.ofList cs := by
        rw [String.ext_iff]; simp
      rw [hcons, String.utf8ByteSize_append, String.utf8ByteSize_singleton, ih]
      rfl
  rw [← h, String.ofList_toList]

/-! ### The bytes themselves -/

/-- The UTF-8 form of `cs`. -/
def utf8 (cs : List Char) : List UInt8 := cs.flatMap String.utf8EncodeChar

/-- The bytes of a text. -/
def bytesOf (text : String) : List UInt8 := text.toUTF8.data.toList

@[simp] theorem utf8_nil : utf8 [] = [] := rfl

@[simp] theorem utf8_cons (c : Char) (cs : List Char) :
    utf8 (c :: cs) = String.utf8EncodeChar c ++ utf8 cs := rfl

@[simp] theorem utf8_append (cs ds : List Char) : utf8 (cs ++ ds) = utf8 cs ++ utf8 ds :=
  List.flatMap_append

/-- A list of characters is as wide as its UTF-8 form is long. -/
@[simp] theorem length_utf8 (cs : List Char) : (utf8 cs).length = byteWidth cs := by
  induction cs with
  | nil => rfl
  | cons c cs ih => rw [utf8_cons, List.length_append, String.length_utf8EncodeChar, ih]; rfl

/-- A text consists of the bytes of its characters. -/
theorem bytesOf_eq (text : String) : bytesOf text = utf8 text.toList := by
  show text.toByteArray.data.toList = _
  rw [← String.utf8Encode_toList]
  show (utf8 text.toList).toByteArray.data.toList = _
  rw [List.data_toByteArray]

end Idl
