/-
# Kvengine.Hash -- what the hash of a key tells apart

`Slice::hash` mixes a key into 32 bits four bytes at a time, and every step can be undone: of
what has been mixed before (`hashLoop_inj`), and of the block that is mixed in
(`blockMix_inj`).  So the hash tells any two keys of one length apart that differ in one block
(`hash_ne_of_block`), and `DefaultSplitFunc` spreads the keys that share all other blocks evenly
over the workers (`split_balanced`).
-/
import KTableFS.Kvengine.Db
import KTableFS.Theory.Mixing

namespace KTableFS.Kvengine

open KTableFS.Theory

set_option autoImplicit false

namespace Slice

/-- The constant `m` of the source is a unit. -/
theorem mul_m_inj {x y : UInt32} (same : x * 0x5bd1e995 = y * 0x5bd1e995) : x = y :=
  mul_unit_inj (show (0x5bd1e995 : UInt32) * 0xe59b19bd = 1 by decide) same

/-- `k *= m; k ^= k >> r; k *= m;` -/
def blockMix (k : UInt32) : UInt32 :=
  let k : UInt32 := k * 0x5bd1e995
  (k ^^^ (k >>> 24)) * 0x5bd1e995

theorem blockMix_inj {k k' : UInt32} (same : blockMix k = blockMix k') : k = k' :=
  mul_m_inj (word_xor_shiftRight_inj (show 0 < (24 : UInt32).toNat % 32 by decide) (mul_m_inj same))

/-- One turn of the loop. -/
theorem hashLoop_cons (a b c d : UInt8) (rest : List UInt8) (h : UInt32) :
    hashLoop (a :: b :: c :: d :: rest) h =
      hashLoop rest ((h * 0x5bd1e995) ^^^ blockMix (.ofNat (loadLE [a, b, c, d]))) := by
  delta hashLoop
  rfl

/-! ## What has been mixed before -/

theorem hashTail_inj {h h' : UInt32} : ∀ {tail : List UInt8}, hashTail tail h = hashTail tail h' → h = h'
  | [], same => same
  | [a], same => by simpa [hashTail] using mul_m_inj same
  | [a, b], same => by simpa [hashTail] using mul_m_inj same
  | [a, b, c], same => by simpa [hashTail] using mul_m_inj same
  | _ :: _ :: _ :: _ :: _, same => same

/-- The rest of a key keeps apart what the part before it has kept apart. -/
theorem hashLoop_inj : ∀ {rest : List UInt8} {h h' : UInt32}, hashLoop rest h = hashLoop rest h' → h = h'
  | _ :: _ :: _ :: _ :: rest, h, h', same => by
      rw [hashLoop_cons, hashLoop_cons] at same
      have here := hashLoop_inj same
      exact mul_m_inj ((UInt32.xor_left_inj _).mp here)
  | [], _, _, same => hashTail_inj same
  | [_], _, _, same => hashTail_inj same
  | [_, _], _, _, same => hashTail_inj same
  | [_, _, _], _, _, same => hashTail_inj same

/-! ## A block -/

/-- The blocks before a position. -/
theorem hashLoop_append : ∀ {before : List UInt8}, 4 ∣ before.length → ∃ mixed : UInt32 → UInt32,
    ∀ rest h, hashLoop (before ++ rest) h = hashLoop rest (mixed h)
  | [], _ => ⟨id, fun _ _ => rfl⟩
  | a :: b :: c :: d :: before, aligned => by
      have fewer : 4 ∣ before.length := by simpa [Nat.dvd_add_left] using aligned
      obtain ⟨mixed, same⟩ := hashLoop_append fewer
      exact ⟨_, fun rest h => (hashLoop_cons a b c d (before ++ rest) h).trans (same rest _)⟩
  | [_], aligned => by simp at aligned
  | [_, _], aligned => by simp at aligned
  | [_, _, _], aligned => by simp at aligned

theorem loadLE_lt : ∀ bytes : List UInt8, loadLE bytes < 256 ^ bytes.length
  | [] => Nat.one_pos
  | byte :: rest => by
      have here := byte.toNat_lt
      have later := loadLE_lt rest
      rw [loadLE, List.length_cons, Nat.pow_succ]
      omega

/-- Words are told apart by their bytes. -/
theorem ofNat_loadLE_inj {x y : List UInt8} (width : x.length = y.length) (short : x.length ≤ 4)
    (same : UInt32.ofNat (loadLE x) = .ofNat (loadLE y)) : x = y := by
  have bound : ∀ {bytes : List UInt8}, bytes.length ≤ 4 → loadLE bytes < 2 ^ 32 := fun {bytes} short =>
    (loadLE_lt bytes).trans_le (Nat.pow_le_pow_right (by decide) short)
  have numbers := congrArg UInt32.toNat same
  rw [UInt32.toNat_ofNat', UInt32.toNat_ofNat', Nat.mod_eq_of_lt (bound short),
    Nat.mod_eq_of_lt (bound (width ▸ short))] at numbers
  exact loadLE_inj width numbers

/-- The bytes of the tail are mixed in as a word. -/
theorem tail_word (a b c : UInt8) : (c.toUInt32 <<< 16) ^^^ (b.toUInt32 <<< 8) ^^^ a.toUInt32 =
    UInt32.ofNat (loadLE [a, b, c]) := by
  have inA := a.toNat_lt
  have inB := b.toNat_lt
  have inC := c.toNat_lt
  apply UInt32.toNat_inj.mp
  simp only [UInt32.toNat_xor, UInt32.toNat_shiftLeft, UInt8.toNat_toUInt32, loadLE, UInt32.toNat_ofNat',
    UInt32.reduceToNat, Nat.reduceMod, Nat.shiftLeft_eq]
  rw [Nat.mod_eq_of_lt (by omega), Nat.mod_eq_of_lt (by omega), Nat.mod_eq_of_lt (by omega)]
  have upper : c.toNat * 2 ^ 16 ^^^ b.toNat * 2 ^ 8 = (2 ^ 8 * c.toNat + b.toNat) * 2 ^ 8 := by
    have sum := shiftLeft_xor (k := 8) (x := c.toNat) inB
    rw [show c.toNat * 2 ^ 16 = c.toNat * 2 ^ 8 * 2 ^ 8 by omega, ← Nat.shiftLeft_eq, ← Nat.shiftLeft_eq,
      ← Nat.shiftLeft_eq, ← Nat.shiftLeft_xor_distrib, sum, Nat.shiftLeft_eq]
  rw [upper, ← Nat.shiftLeft_eq, shiftLeft_xor inA]
  omega

/-- A tail is told apart by its bytes. -/
theorem hashTail_bytes_inj {x y : List UInt8} {h : UInt32} (width : x.length = y.length) (short : x.length < 4)
    (same : hashTail x h = hashTail y h) : x = y := by
  have mixed : ∀ {tail : List UInt8}, tail.length < 4 → tail ≠ [] →
      hashTail tail h = (h ^^^ .ofNat (loadLE tail)) * 0x5bd1e995 := by
    intro tail short some'
    match tail with
    | [] => exact absurd rfl some'
    | [a] =>
        have word := tail_word a 0 0
        rw [show (0 : UInt8).toUInt32 <<< 16 = 0 from rfl, show (0 : UInt8).toUInt32 <<< 8 = 0 from rfl,
          UInt32.zero_xor, UInt32.zero_xor] at word
        exact congrArg (fun w => (h ^^^ w) * 0x5bd1e995) word
    | [a, b] =>
        have word := tail_word a b 0
        rw [show (0 : UInt8).toUInt32 <<< 16 = 0 from rfl, UInt32.zero_xor] at word
        have sum : hashTail [a, b] h = (h ^^^ ((b.toUInt32 <<< 8) ^^^ a.toUInt32)) * 0x5bd1e995 := by
          rw [← UInt32.xor_assoc]
          rfl
        exact sum.trans (congrArg (fun w => (h ^^^ w) * 0x5bd1e995) word)
    | [a, b, c] =>
        rw [← tail_word, ← UInt32.xor_assoc, ← UInt32.xor_assoc]
        rfl
    | _ :: _ :: _ :: _ :: _ =>
        simp only [List.length_cons] at short
        omega
  cases x with
  | nil => exact (List.length_eq_zero_iff.mp width.symm).symm
  | cons a x =>
      have some' : y ≠ [] := by
        rintro rfl
        cases width
      rw [mixed short (List.cons_ne_nil a x), mixed (width ▸ short) some'] at same
      exact ofNat_loadLE_inj width short.le ((UInt32.xor_right_inj _).mp (mul_m_inj same))

/-- A key that is shorter than a block is a tail. -/
theorem hashLoop_short {x : List UInt8} (short : x.length < 4) (h : UInt32) : hashLoop x h = hashTail x h := by
  match x with
  | [] | [_] | [_, _] | [_, _, _] => rfl
  | _ :: _ :: _ :: _ :: _ =>
      simp only [List.length_cons] at short
      omega

/-- **A block is told apart by its bytes**, whatever is behind it. -/
theorem hashLoop_bytes_inj {x y rest : List UInt8} {h : UInt32} (width : x.length = y.length)
    (short : x.length = 4 ∨ x.length < 4 ∧ rest = [])
    (same : hashLoop (x ++ rest) h = hashLoop (y ++ rest) h) : x = y := by
  rcases short with four | ⟨less, rfl⟩
  · match x, y, width with
    | [a, b, c, d], [a', b', c', d'], width =>
        have here := hashLoop_inj ((hashLoop_cons a b c d rest h).symm.trans
          (same.trans (hashLoop_cons a' b' c' d' rest h)))
        exact ofNat_loadLE_inj width four.le (blockMix_inj ((UInt32.xor_right_inj _).mp here))
  · rw [List.append_nil, List.append_nil, hashLoop_short less, hashLoop_short (width ▸ less)] at same
    exact hashTail_bytes_inj width less same

/-- The end of the mixing. -/
theorem hash_inj_of_loop {s t : Slice} (same : hash s = hash t) :
    hashLoop s (.ofNat s.length) = hashLoop t (.ofNat t.length) := by
  have outer := word_xor_shiftRight_inj (show 0 < (15 : UInt32).toNat % 32 by decide) same
  exact word_xor_shiftRight_inj (show 0 < (13 : UInt32).toNat % 32 by decide) (mul_m_inj outer)

/-! ## Keys -/

theorem hash_block {before x after : Slice} {mixed : UInt32 → UInt32}
    (loop : ∀ rest h, hashLoop (before ++ rest) h = hashLoop rest (mixed h)) {y : Slice}
    (width : x.length = y.length) (short : x.length = 4 ∨ x.length < 4 ∧ after = [])
    (same : hash (before ++ (x ++ after)) = hash (before ++ (y ++ after))) : x = y := by
  have inner := hash_inj_of_loop same
  rw [loop, loop] at inner
  simp only [List.length_append, width] at inner
  exact hashLoop_bytes_inj width short inner

/-- **The hash tells keys of one length apart that differ in one block.** -/
theorem hash_ne_of_block {s t : Slice} (width : s.length = t.length) (j : Nat)
    (agree : ∀ i, i / 4 ≠ j → s[i]? = t[i]?) (differ : s ≠ t) : hash s ≠ hash t := by
  intro same
  apply differ
  by_cases far : s.length ≤ 4 * j
  · -- there is no such block
    refine List.ext_getElem? fun i => ?_
    by_cases other : i / 4 = j
    · rw [List.getElem?_eq_none (by omega), List.getElem?_eq_none (by omega)]
    · exact agree i other
  have first : s.take (4 * j) = t.take (4 * j) := by
    refine List.ext_getElem? fun i => ?_
    rw [List.getElem?_take, List.getElem?_take]
    by_cases less : i < 4 * j
    · rw [if_pos less, if_pos less, agree i (by omega)]
    · rw [if_neg less, if_neg less]
  have last : s.drop (4 * j + 4) = t.drop (4 * j + 4) := by
    refine List.ext_getElem? fun i => ?_
    rw [List.getElem?_drop, List.getElem?_drop, agree _ (by omega)]
  have parts : ∀ u : Slice, u = u.take (4 * j) ++ ((u.drop (4 * j)).take 4 ++ u.drop (4 * j + 4)) := by
    intro u
    rw [← List.drop_drop, List.take_append_drop, List.take_append_drop]
  have aligned : 4 ∣ (t.take (4 * j)).length := by
    rw [List.length_take, min_eq_left (by omega)]
    exact Nat.dvd_mul_right ..
  obtain ⟨mixed, loop⟩ := hashLoop_append aligned
  rw [parts s, parts t, first, last] at same
  have width' : ((s.drop (4 * j)).take 4).length = ((t.drop (4 * j)).take 4).length := by
    rw [List.length_take, List.length_take, List.length_drop, List.length_drop, width]
  have short : ((s.drop (4 * j)).take 4).length = 4 ∨
      ((s.drop (4 * j)).take 4).length < 4 ∧ t.drop (4 * j + 4) = [] := by
    rw [List.length_take, List.length_drop, List.drop_eq_nil_iff]
    omega
  have block := hash_block loop width' short same
  rw [parts s, parts t, first, last, block]

theorem hash_ne_of_block_example :
    ([97, 98, 99, 100, 101] : Slice).length = ([97, 98, 99, 100, 102] : Slice).length ∧
    (∀ i, i / 4 ≠ 1 → ([97, 98, 99, 100, 101] : Slice)[i]? = ([97, 98, 99, 100, 102] : Slice)[i]?) ∧
    ([97, 98, 99, 100, 101] : Slice) ≠ [97, 98, 99, 100, 102] ∧
    hash [97, 98, 99, 100, 101] ≠ hash [97, 98, 99, 100, 102] := by
  have agree : ∀ i, i / 4 ≠ 1 →
      ([97, 98, 99, 100, 101] : Slice)[i]? = ([97, 98, 99, 100, 102] : Slice)[i]? := by
    intro i other
    match i with
    | 0 | 1 | 2 | 3 => rfl
    | 4 => exact absurd rfl other
    | i + 5 => rfl
  exact ⟨rfl, agree, by decide, hash_ne_of_block rfl 1 agree (by decide)⟩

end Slice

/-- **`DefaultSplitFunc` spreads evenly** the keys that share all blocks but one: no worker gets two
more of them than another. -/
theorem split_balanced {before after : Slice} (aligned : 4 ∣ before.length) {n k : Nat} (below : k < n) :
    ((Finset.range (2 ^ 32)).filter fun word =>
      defaultSplitFunc (before ++ (storeLE 4 word ++ after)) n = k).card =
        2 ^ 32 / n + if k < 2 ^ 32 % n then 1 else 0 := by
  refine card_filter_mod (f := fun word => (Slice.hash (before ++ (storeLE 4 word ++ after))).toNat)
    (fun w _ => UInt32.toNat_lt _) (fun w less w' less' same => ?_) below
  obtain ⟨mixed, loop⟩ := Slice.hashLoop_append aligned
  have bytes := Slice.hash_block loop (by simp) (Or.inl (by simp)) (UInt32.toNat_inj.mp same)
  have words := congrArg loadLE bytes
  rwa [loadLE_storeLE_of_lt less, loadLE_storeLE_of_lt less'] at words

theorem split_balanced_example : 4 ∣ ([] : Slice).length ∧ 1 < 3 ∧
    ((Finset.range (2 ^ 32)).filter fun word => defaultSplitFunc ([] ++ (storeLE 4 word ++ [47])) 3 = 1).card =
      2 ^ 32 / 3 + if 1 < 2 ^ 32 % 3 then 1 else 0 :=
  ⟨by decide, by decide, split_balanced (by decide) (by decide)⟩

end KTableFS.Kvengine
