import Consensus.Text.Utf8
import Mathlib.Data.List.Basic

/-!
# Every text is read as it was encoded

Bytes are kept as lists here and packed by the library, so the two forms are
shown to be one before the well-formedness of a text's own bytes is used.
-/

namespace Consensus.Utf8

theorem toList_loop_eq (bytes : ByteArray) (i : ℕ) (read : List UInt8) :
    ByteArray.toList.loop bytes i read =
      read.reverse ++ bytes.data.toList.drop i := by
  induction i, read using ByteArray.toList.loop.induct bytes with
  | case1 i read hlt ih =>
      have hi : i < bytes.data.toList.length := hlt
      rw [ByteArray.toList.loop, if_pos hlt, ih, List.drop_eq_getElem_cons hi,
        List.reverse_cons, List.append_assoc]
      have hget : bytes.get! i = bytes.data.toList[i] :=
        getElem!_pos bytes.data i hlt
      rw [hget]
      rfl
  | case2 i read hle =>
      have hi : bytes.data.toList.length ≤ i := Nat.le_of_not_lt hle
      rw [ByteArray.toList.loop, if_neg hle, List.drop_eq_nil_of_le hi,
        List.append_nil]

theorem toByteArray_toList (bytes : ByteArray) :
    bytes.toList.toByteArray = bytes := by
  have hlist : bytes.toList = bytes.data.toList := by
    unfold ByteArray.toList
    rw [toList_loop_eq]
    rfl
  apply ByteArray.ext
  rw [List.data_toByteArray, hlist, Array.toArray_toList]

/-- The bytes of a text spell it. -/
theorem decode?_of_toByteArray {bytes : Bytes} {text : String}
    (h : bytes.toByteArray = text.toUTF8) : decode? bytes = some text := by
  have hvalid : text.toUTF8.IsValidUTF8 := text.isValidUTF8
  unfold decode? String.fromUTF8?
  rw [h, dif_pos hvalid]
  rfl

theorem decode?_encode (text : String) : decode? (encode text) = some text :=
  decode?_of_toByteArray (toByteArray_toList text.toUTF8)

/-! ## Printable bytes -/

/-- The bytes are printable characters, none of them beyond 7 bits. -/
def IsPrintable (bytes : Bytes) : Prop :=
  ∀ b ∈ bytes, 0x20 ≤ b.toNat ∧ b.toNat < 0x7f

instance (bytes : Bytes) : Decidable (IsPrintable bytes) :=
  List.decidableBAll (fun b : UInt8 => 0x20 ≤ b.toNat ∧ b.toNat < 0x7f) bytes

theorem isPrintable_append {xs ys : Bytes} :
    IsPrintable (xs ++ ys) ↔ IsPrintable xs ∧ IsPrintable ys :=
  List.forall_mem_append

theorem isPrintable_cons {b : UInt8} {bytes : Bytes} :
    IsPrintable (b :: bytes) ↔
      (0x20 ≤ b.toNat ∧ b.toNat < 0x7f) ∧ IsPrintable bytes :=
  List.forall_mem_cons

/-- Printable bytes spell their characters one by one. -/
theorem decode?_of_isPrintable {bytes : Bytes} (h : IsPrintable bytes) :
    decode? bytes =
      some (String.ofList (bytes.map fun b => Char.ofNat b.toNat)) := by
  have hsingle : ∀ n < 0x7f, String.utf8EncodeChar (Char.ofNat n) =
      [UInt8.ofNat n] := by
    decide
  have hbytes : (bytes.map fun b => Char.ofNat b.toNat).flatMap
      String.utf8EncodeChar = bytes := by
    induction bytes with
    | nil => rfl
    | cons b bytes ih =>
        obtain ⟨hb, hrest⟩ := isPrintable_cons.mp h
        rw [List.map_cons, List.flatMap_cons, hsingle b.toNat hb.2, ih hrest,
          UInt8.ofNat_toNat]
        rfl
  apply decode?_of_toByteArray
  have htext : (String.ofList (bytes.map fun b => Char.ofNat b.toNat)).toUTF8 =
      ((bytes.map fun b => Char.ofNat b.toNat).flatMap
        String.utf8EncodeChar).toByteArray := rfl
  rw [htext, hbytes]

end Consensus.Utf8
