/-
# Kvengine.Item -- items in memory and on disk

`ItemAt memory addr key value`: the bytes of the item `(key, value)` lie at `addr`.
For an item whose two lengths fit their `uint16_t` fields, both decoders of the
source undo the encoder: the synchronous one (`decodeItem_of_itemAt`) and the two
words the completion callback reads with the value after them (`ItemAt.parts`).
-/
import KTableFS.Kvengine.FileSlab

namespace KTableFS.Kvengine

open KTableFS.Theory

set_option autoImplicit false

/-- The lengths fit their `uint16_t` fields. -/
def Narrow (key value : Slice) : Prop :=
  key.length < 2 ^ 16 ∧ value.length < 2 ^ 16

theorem narrow_of_itemSize {key value : Slice} {size : Nat} (fits : itemSize key value ≤ size)
    (small : size ≤ 1024) : Narrow key value := by
  unfold itemSize at fits
  constructor <;> omega

theorem itemBytes_of_narrow {key value : Slice} (narrow : Narrow key value) :
    itemBytes key value =
      storeLE 2 validTag ++ (storeLE 2 key.length ++ (storeLE 2 value.length ++ (key ++ value))) := by
  unfold itemBytes
  simp only [Nat.mod_eq_of_lt narrow.1, Nat.mod_eq_of_lt narrow.2, List.take_length,
    List.append_assoc]

theorem length_itemBytes {key value : Slice} (narrow : Narrow key value) :
    (itemBytes key value).length = itemSize key value := by
  rw [itemBytes_of_narrow narrow]
  simp only [List.length_append, length_storeLE, itemSize]
  omega

theorem itemBytes_ne_nil (key value : Slice) : itemBytes key value ≠ [] := by
  simp [itemBytes, storeLE]

/-- The three words of an encoded item, with anything after it. -/
theorem word16_itemBytes {key value : Slice} (narrow : Narrow key value) (rest : Slice) :
    word16 (itemBytes key value ++ rest) 0 = validTag ∧
    word16 (itemBytes key value ++ rest) 2 = key.length ∧
    word16 (itemBytes key value ++ rest) 4 = value.length := by
  have word : ∀ n : Nat, n < 2 ^ 16 → ∀ tail : Slice,
      loadLE ((storeLE 2 n ++ tail).take 2) = n := by
    intro n fits tail
    rw [List.take_left' (by simp)]
    exact loadLE_storeLE_of_lt (by simpa using fits)
  have skip : ∀ (n : Nat) (tail : Slice), (storeLE 2 n ++ tail).drop 2 = tail := by
    intro n tail
    exact List.drop_left' (by simp)
  have drop4 : ∀ l : Slice, l.drop 4 = (l.drop 2).drop 2 := by intro l; simp
  rw [itemBytes_of_narrow narrow]
  simp only [word16, List.append_assoc, List.drop_zero, drop4, skip]
  exact ⟨word _ (by decide) _, word _ narrow.1 _, word _ narrow.2 _⟩

/-- The bytes after the three words. -/
theorem drop_itemBytes {key value : Slice} (narrow : Narrow key value) (rest : Slice) :
    (itemBytes key value ++ rest).drop 6 = key ++ (value ++ rest) := by
  have split : itemBytes key value ++ rest =
      (storeLE 2 validTag ++ storeLE 2 key.length ++ storeLE 2 value.length) ++
        (key ++ (value ++ rest)) := by
    rw [itemBytes_of_narrow narrow]
    simp only [List.append_assoc]
  rw [split]
  exact List.drop_left' (by simp)

/-- Decoding the encoded item, with anything after it, gives it back. -/
theorem decodeItem_itemBytes {key value : Slice} (narrow : Narrow key value) (rest : Slice) :
    decodeItem (itemBytes key value ++ rest) = (validTag, key, value) := by
  obtain ⟨tagWord, keyWord, valueWord⟩ := word16_itemBytes narrow rest
  unfold decodeItem
  simp only [keyWord, valueWord, tagWord]
  rw [← List.drop_drop, drop_itemBytes narrow]
  simp

/-! ## Items at an address -/

def ItemAt (memory : Memory) (addr : Nat) (key value : Slice) : Prop :=
  Narrow key value ∧ cut memory addr (itemSize key value) = itemBytes key value

theorem ItemAt.congr {memory memory' : Memory} {addr addr' : Nat} {key value : Slice}
    (item : ItemAt memory addr key value)
    (same : ∀ i, i < itemSize key value → memory' (addr' + i) = memory (addr + i)) :
    ItemAt memory' addr' key value :=
  ⟨item.1, (cut_congr same).trans item.2⟩

theorem itemAt_blit (memory : Memory) (addr : Nat) {key value : Slice} (narrow : Narrow key value) :
    ItemAt (blit memory addr (itemBytes key value)) addr key value := by
  refine ⟨narrow, ?_⟩
  rw [← length_itemBytes narrow]
  exact cut_blit memory addr _

/-- A slab that holds an item decodes to it. -/
theorem decodeItem_of_itemAt {memory : Memory} {addr size : Nat} {key value : Slice}
    (item : ItemAt memory addr key value) (fits : itemSize key value ≤ size) :
    decodeItem (cut memory addr size) = (validTag, key, value) := by
  obtain ⟨rest, rfl⟩ := Nat.exists_eq_add_of_le fits
  rw [cut_add, item.2]
  exact decodeItem_itemBytes item.1 _

/-- The parts of an item, as runs of the memory it lies in. -/
theorem ItemAt.parts {memory : Memory} {addr : Nat} {key value : Slice}
    (item : ItemAt memory addr key value) :
    loadLE (cut memory (addr + 2) 2) = key.length ∧
    loadLE (cut memory (addr + 4) 2) = value.length ∧
    cut memory (addr + 6 + key.length) value.length = value := by
  have run : ∀ from' part, from' + part ≤ itemSize key value →
      cut memory (addr + from') part = ((itemBytes key value ++ []).drop from').take part := by
    intro from' part fits
    rw [List.append_nil, ← item.2, cut_drop _ _ (by omega), cut_take _ _ (by omega)]
  have total : itemSize key value = key.length + value.length + 6 := rfl
  obtain ⟨-, keyWord, valueWord⟩ := word16_itemBytes item.1 []
  refine ⟨?_, ?_, ?_⟩
  · rw [run 2 2 (by omega)]
    exact keyWord
  · rw [run 4 2 (by omega)]
    exact valueWord
  · rw [Nat.add_assoc, run (6 + key.length) value.length (by omega), ← List.drop_drop,
      drop_itemBytes item.1]
    simp

end KTableFS.Kvengine
