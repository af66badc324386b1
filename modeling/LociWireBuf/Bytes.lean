import Mathlib.Data.List.Basic
import Mathlib.Algebra.Group.Int

/-!
# Bytes at a pointer

The memory a wire buffer's `buf` points to, and the byte operations the accessors of
`of_wire_buf.h` are built from. These come from outside the header (`of_buffer.h` and the C
library), so the model takes them from what the spec says they do (§4.2, §4.4).

* `Store`: the byte at `buf + i` for every integer `i`, with the number of bytes the block
  really holds. Bytes outside `[0, size)` belong to the memory next to the block: an access there
  is out of bounds, and the model keeps it observable instead of ruling it out.
* `Store.read`/`Store.write`: `n` bytes from a position, and a list of bytes stored at a position.
  `read_write_self`, `read_write_of_disjoint` and `read_congr` are the laws the accessors use;
  `read_write_window` is a store seen through a window from `buf` on; `write_append`,
  `write_write_of_length_eq`, `write_comm` and `write_read_self` compose stores.
* `memmove`: `MEMMOVE` stores the source bytes as they were before the copy, so it is right for
  overlapping ranges; `memset`: `MEMSET`.
* `bytesBE`/`fromBE`: network byte order, with the round trips `fromBE_bytesBE` and
  `bytesBE_fromBE`, and `bytesBE_add`, the bytes of a value split at a byte boundary.
* `toSizeT`: the conversion of an `int` byte count to `size_t`; `intMax`, the largest `int`.
-/

namespace Loci

/-- The memory `buf` points to: `byte i` is the byte at `buf + i` for every `i`, before the block
and past its end included, and `size` is the number of bytes the block holds. -/
structure Store where
  byte : Int → UInt8
  size : Nat

namespace Store

/-- The `n` bytes from `buf + p` on. -/
def read (s : Store) (p : Int) (n : Nat) : List UInt8 :=
  (List.range n).map fun (k : Nat) => s.byte (p + k)

/-- `s` with the bytes `bs` stored from `buf + p` on. The block keeps its size. -/
def write (s : Store) (p : Int) (bs : List UInt8) : Store where
  byte i := if p ≤ i ∧ i < p + bs.length then bs.getD (i - p).toNat 0 else s.byte i
  size := s.size

variable {s t : Store} {p q i : Int} {n : Nat} {bs : List UInt8}

@[simp] theorem length_read : (s.read p n).length = n := by
  simp only [read, List.length_map, List.length_range]

@[simp] theorem size_write : (s.write p bs).size = s.size := rfl

theorem getElem_read {k : Nat} (h : k < (s.read p n).length) : (s.read p n)[k] = s.byte (p + k) := by
  simp only [read, List.getElem_map, List.getElem_range]

theorem byte_write : (s.write p bs).byte i =
    if p ≤ i ∧ i < p + bs.length then bs.getD (i - p).toNat 0 else s.byte i := rfl

/-- A store changes no byte outside the range it writes. -/
theorem byte_write_of_not_mem (h : i < p ∨ p + bs.length ≤ i) : (s.write p bs).byte i = s.byte i := by
  rw [byte_write, if_neg (by omega)]

/-- A read sees only the bytes of its range. -/
theorem read_congr (h : ∀ i, p ≤ i → i < p + n → s.byte i = t.byte i) : s.read p n = t.read p n := by
  simp only [read]
  exact List.map_congr_left fun k hk => h _ (by omega) (by rw [List.mem_range] at hk; omega)

/-- A read of the written range gives the written bytes. -/
theorem read_write_self (s : Store) (p : Int) (bs : List UInt8) :
    (s.write p bs).read p bs.length = bs := by
  apply List.ext_getElem (by simp)
  intro k h1 h2
  rw [getElem_read, byte_write, if_pos (by omega), show p + k - p = (k : Int) by omega, Int.toNat_ofNat]
  simp [h2]

/-- A read of a range that does not overlap the written one is unchanged. -/
theorem read_write_of_disjoint (h : q + n ≤ p ∨ p + bs.length ≤ q) :
    (s.write p bs).read q n = s.read q n :=
  read_congr fun _ h1 h2 => byte_write_of_not_mem (by omega)

/-! ### Windows -/

theorem take_read (s : Store) (p : Int) (n m : Nat) : (s.read p m).take n = s.read p (min n m) := by
  simp only [read, ← List.map_take, List.take_range]

theorem drop_read (s : Store) (p : Int) (d m : Nat) :
    (s.read p m).drop d = s.read (p + d) (m - d) := by
  apply List.ext_getElem (by simp)
  intro k h1 h2
  simp only [List.getElem_drop, getElem_read]
  congr 1; push_cast; omega

theorem read_add (s : Store) (p : Int) (a b : Nat) :
    s.read p (a + b) = s.read p a ++ s.read (p + a) b := by
  apply List.ext_getElem (by simp)
  intro k h1 h2
  rw [List.getElem_append]
  split <;> rename_i hk <;> simp only [getElem_read, length_read] at hk ⊢
  congr 1; omega

/-- A store seen through the window `[0, m)` that holds it: the bytes before it, the stored
bytes, the bytes after. -/
theorem read_write_window (s : Store) (p : Nat) (bs : List UInt8) {m : Nat} (h : p + bs.length ≤ m) :
    (s.write p bs).read 0 m = (s.read 0 m).take p ++ bs ++ (s.read 0 m).drop (p + bs.length) := by
  obtain ⟨r, rfl⟩ : ∃ r, m = p + bs.length + r := ⟨m - (p + bs.length), by omega⟩
  have hw : (s.write p bs).read p bs.length = bs := read_write_self s p bs
  rw [read_add _ 0 (p + bs.length) r, read_add _ 0 p bs.length, Int.zero_add, Int.zero_add, hw,
    read_write_of_disjoint (by omega), read_write_of_disjoint (by push_cast; omega), take_read,
    drop_read, Nat.min_eq_left (by omega), Int.zero_add, Nat.add_sub_cancel_left]

/-! ### Laws of stores -/

theorem ext_byte {s t : Store} (hb : ∀ i, s.byte i = t.byte i) (hs : s.size = t.size) : s = t := by
  cases s; cases t; cases hs; congr; funext i; exact hb i

/-- A read inside a written range gives the matching slice of the written bytes. -/
theorem read_write_inside (s : Store) (p : Int) (bs : List UInt8) {k n : Nat} (h : k + n ≤ bs.length) :
    (s.write p bs).read (p + k) n = (bs.drop k).take n :=
  calc (s.write p bs).read (p + k) n
      = (((s.write p bs).read p bs.length).drop k).take n := by
        rw [drop_read, take_read, Nat.min_eq_left (by omega)]
    _ = (bs.drop k).take n := by rw [read_write_self]

/-- Two adjacent stores are one store of both byte lists. -/
theorem write_append (s : Store) (p : Int) (xs ys : List UInt8) :
    (s.write p xs).write (p + xs.length) ys = s.write p (xs ++ ys) := by
  refine ext_byte (fun i => ?_) rfl
  simp only [byte_write, List.length_append, Nat.cast_add]
  by_cases h1 : p + xs.length ≤ i ∧ i < p + xs.length + ys.length
  · rw [if_pos h1, if_pos (by omega), List.getD_eq_getElem?_getD, List.getD_eq_getElem?_getD,
      List.getElem?_append_right (by omega),
      show (i - p).toNat - xs.length = (i - (p + xs.length)).toNat by omega]
  · rw [if_neg h1]
    by_cases h2 : p ≤ i ∧ i < p + xs.length
    · rw [if_pos h2, if_pos (by omega), List.getD_eq_getElem?_getD, List.getD_eq_getElem?_getD,
        List.getElem?_append_left (by omega)]
    · rw [if_neg h2, if_neg (by omega)]

/-- A second store over the same range replaces the first. -/
theorem write_write_of_length_eq (s : Store) (p : Int) {bs bs' : List UInt8}
    (h : bs.length = bs'.length) : (s.write p bs).write p bs' = s.write p bs' := by
  refine ext_byte (fun i => ?_) rfl
  simp only [byte_write, h]
  split <;> rfl

/-- Stores to disjoint ranges commute. -/
theorem write_comm (s : Store) {p q : Int} {bs cs : List UInt8}
    (h : p + bs.length ≤ q ∨ q + cs.length ≤ p) :
    (s.write p bs).write q cs = (s.write q cs).write p bs := by
  refine ext_byte (fun i => ?_) rfl
  simp only [byte_write]
  split_ifs <;> first | rfl | omega

/-- Storing back the bytes a range holds changes nothing. -/
theorem write_read_self (s : Store) (p : Int) (n : Nat) : s.write p (s.read p n) = s := by
  refine ext_byte (fun i => ?_) rfl
  rw [byte_write]
  split
  · next h =>
    rw [length_read] at h
    obtain ⟨k, rfl⟩ : ∃ k : Nat, i = p + k := ⟨(i - p).toNat, by omega⟩
    rw [show p + k - p = (k : Int) by omega, Int.toNat_ofNat, List.getD_eq_getElem?_getD,
      List.getElem?_eq_getElem (by simp; omega), Option.getD_some, getElem_read]
  · rfl

end Store

/-- `MEMMOVE(buf + dst, buf + src, n)`: the `n` bytes at `src`, as they were before the copy,
stored at `dst`. -/
def memmove (s : Store) (dst src : Int) (n : Nat) : Store := s.write dst (s.read src n)

/-- `MEMSET(buf + p, c, n)`. -/
def memset (s : Store) (p : Int) (c : UInt8) (n : Nat) : Store := s.write p (List.replicate n c)

/-- The bytes `memmove` leaves at `dst + k`, for `k < n`, are the ones that were at `src + k`. -/
theorem byte_memmove {s : Store} {dst src : Int} {n k : Nat} (hk : k < n) :
    (memmove s dst src n).byte (dst + k) = s.byte (src + k) := by
  rw [memmove, Store.byte_write, if_pos (by simp only [Store.length_read]; omega),
    show dst + k - dst = (k : Int) by omega, Int.toNat_ofNat, List.getD_eq_getElem?_getD, List.getElem?_eq_getElem (by simpa), Option.getD_some,
    Store.getElem_read]

/-! ## Network byte order -/

/-- The `w` low bytes of `v` in network byte order, the most significant first. -/
def bytesBE : Nat → Nat → List UInt8
  | 0, _ => []
  | w + 1, v => bytesBE w (v / 256) ++ [v.toUInt8]

/-- The number `bs` holds in network byte order. -/
def fromBE (bs : List UInt8) : Nat := bs.foldl (fun acc b => acc * 256 + b.toNat) 0

@[simp] theorem length_bytesBE (w v : Nat) : (bytesBE w v).length = w := by
  induction w generalizing v with
  | zero => rfl
  | succ w ih => simp [bytesBE, ih]

theorem fromBE_append (bs : List UInt8) (b : UInt8) : fromBE (bs ++ [b]) = fromBE bs * 256 + b.toNat := by
  simp [fromBE, List.foldl_append]

/-- Reading back `w` bytes written in network byte order gives the value modulo `256 ^ w`. -/
theorem fromBE_bytesBE (w v : Nat) : fromBE (bytesBE w v) = v % 256 ^ w := by
  induction w generalizing v with
  | zero => simp [bytesBE, fromBE, Nat.mod_one]
  | succ w ih =>
    have hb : (v.toUInt8).toNat = v % 256 := rfl
    rw [bytesBE, fromBE_append, ih, hb, Nat.pow_succ', Nat.mod_mul]
    omega

theorem fromBE_append_bytes (xs ys : List UInt8) :
    fromBE (xs ++ ys) = fromBE xs * 256 ^ ys.length + fromBE ys := by
  induction ys using List.reverseRecOn with
  | nil => simp [fromBE]
  | append_singleton ys y ih =>
    rw [← List.append_assoc, fromBE_append, ih, fromBE_append, List.length_append,
      List.length_singleton, Nat.pow_succ, Nat.add_mul, Nat.mul_assoc, Nat.add_assoc]

theorem fromBE_lt (bs : List UInt8) : fromBE bs < 256 ^ bs.length := by
  induction bs using List.reverseRecOn with
  | nil => simp [fromBE]
  | append_singleton bs b ih =>
    have hb : b.toNat < 256 := b.toNat_lt_size
    rw [fromBE_append, List.length_append, List.length_singleton, Nat.pow_succ]
    calc fromBE bs * 256 + b.toNat < (fromBE bs + 1) * 256 := by omega
      _ ≤ 256 ^ bs.length * 256 := Nat.mul_le_mul_right _ ih

/-- Writing back in network byte order the number some bytes hold gives the same bytes. -/
theorem bytesBE_fromBE (bs : List UInt8) : bytesBE bs.length (fromBE bs) = bs := by
  induction bs using List.reverseRecOn with
  | nil => rfl
  | append_singleton bs b ih =>
    have hb : b.toNat < 256 := b.toNat_lt_size
    rw [List.length_append, List.length_singleton, bytesBE, fromBE_append,
      show (fromBE bs * 256 + b.toNat) / 256 = fromBE bs by omega, ih]
    congr 2
    exact UInt8.toNat.inj (show (fromBE bs * 256 + b.toNat) % 256 = b.toNat by omega)

/-- The `w` bytes of `v` depend on `v` modulo `256 ^ w` only. -/
theorem bytesBE_mod (w v : Nat) : bytesBE w (v % 256 ^ w) = bytesBE w v := by
  have := bytesBE_fromBE (bytesBE w v)
  rwa [length_bytesBE, fromBE_bytesBE] at this

/-- The `a + b` bytes of `v` are the `a` bytes of `v / 256 ^ b` followed by the `b` low bytes. -/
theorem bytesBE_add (a b v : Nat) : bytesBE (a + b) v = bytesBE a (v / 256 ^ b) ++ bytesBE b v := by
  induction b generalizing v with
  | zero => simp [bytesBE]
  | succ b ih =>
    rw [← Nat.add_assoc, bytesBE, ih, bytesBE, List.append_assoc, Nat.div_div_eq_div_mul,
      Nat.pow_succ, Nat.mul_comm]

/-- The `n` bytes of `v` from its `k`-th most significant on, when they lie in its `w` bytes. -/
theorem take_drop_bytesBE (w k n v : Nat) (h : k + n ≤ w) :
    ((bytesBE w v).drop k).take n = bytesBE n (v / 256 ^ (w - k - n)) := by
  obtain ⟨r, rfl⟩ : ∃ r, w = k + (n + r) := ⟨w - k - n, by omega⟩
  rw [bytesBE_add, List.drop_left' (length_bytesBE _ _), bytesBE_add,
    List.take_left' (length_bytesBE _ _), show k + (n + r) - k - n = r by omega]

/-! ## Byte counts -/

/-- `INT_MAX`: `int` is 32 bits wide on the targets of the header. -/
def intMax : Int := 2 ^ 31 - 1

/-- `(size_t) n` for an `int` `n` on a 64-bit target: a negative count wraps to `2 ^ 64 + n`. -/
def toSizeT (n : Int) : Nat := if n < 0 then (n + 2 ^ 64).toNat else n.toNat

theorem toSizeT_of_nonneg {n : Int} (h : 0 ≤ n) : toSizeT n = n.toNat := by
  simp [toSizeT, Int.not_lt.mpr h]

@[simp] theorem toSizeT_natCast (n : Nat) : toSizeT n = n :=
  toSizeT_of_nonneg (Int.ofNat_nonneg n)

end Loci
