import Moc.Lib.EndAround
import Moc.Lib.Memory
import Mathlib.Data.List.GetD
import Mathlib.Tactic.IntervalCases

/-!
# The key hash

`checksum` of `client/internal.c`, by which `select_srv` spreads keys over servers. It names RFC 1071
as its source; `internetChecksum` is that checksum. The loop moves on by one byte where it counts
two, so it adds words that overlap and stops half way through the key. `checksum_iff` says for which
keys the result is the same all the same.
-/

open Bytes Memory EndAround

namespace Moc

/-- The loops over the buffer: `sum += *(uint16_t *)buf++` while two bytes are left, then an odd byte.
The cast is of the pointer before the increment, which is one of `unsigned char *`. -/
def checksumLoop (buf : List UInt8) : ℕ → ℕ → ℕ → Except Fault ℕ
  | pos, bsize + 2, sum => do
    let word ← load buf pos 2
    checksumLoop buf (pos + 1) bsize ((sum + beNat word.reverse) % 2^32)
  | pos, 1, sum => do
    let byte ← load buf pos 1
    return (sum + beNat byte) % 2^32
  | _, 0, sum => return sum

/-- `while (sum >> 16) sum = (sum & 0xffff) + (sum >> 16)` -/
def checksumFold (sum : ℕ) : ℕ :=
  if h : sum / 2^16 = 0 then sum else checksumFold (sum % 2^16 + sum / 2^16)
termination_by sum
decreasing_by omega

/-- `checksum`, on a little-endian host. -/
def checksum (buf : List UInt8) : Except Fault ℕ := do
  let sum ← checksumLoop buf 0 buf.length 0
  return 2^32 - 1 - checksumFold sum

/-! ## The checksum it is named after -/

/-- The words of a buffer in the order of a little-endian host, and an odd last byte as it is. -/
def hostWords : List UInt8 → List ℕ
  | [] => []
  | [b] => [b.toNat]
  | b :: c :: buf => (b.toNat + 256 * c.toNat) :: hostWords buf

/-- The Internet checksum of RFC 1071: the complement of the sum with end-around carry. -/
def internetChecksum (buf : List UInt8) : ℕ := 2^16 - 1 - (hostWords buf).foldl (add 16) 0

theorem lt_of_mem_hostWords {buf : List UInt8} {x : ℕ} (h : x ∈ hostWords buf) : x < 2^16 := by
  induction buf using hostWords.induct with
  | case1 => cases h
  | case2 b =>
    rw [List.mem_singleton.mp h]
    have hb := b.toNat_lt
    omega
  | case3 b c buf ih =>
    rcases List.mem_cons.mp h with rfl | h
    · have hb := b.toNat_lt
      have hc := c.toNat_lt
      omega
    · exact ih h

theorem internetChecksum_eq (buf : List UInt8) :
    internetChecksum buf = 2^16 - 1 - canon (2^16 - 1) (hostWords buf).sum := by
  rw [internetChecksum, foldl_add (fun x => lt_of_mem_hostWords) (by norm_num), zero_add]

/-! ## What the loop adds -/

/-- The sum of the values of some bytes. -/
def byteSum (bs : List UInt8) : ℕ := (bs.map UInt8.toNat).sum

/-- A byte of a buffer. -/
def byteAt (buf : List UInt8) (i : ℕ) : ℕ := (buf.getD i 0).toNat

/-- What the loop adds for the first `n` bytes of a buffer: the first byte once, each byte of the
first half low in one word and high in another, the byte in the middle high, and low if `n` is odd. -/
def halfSum (buf : List UInt8) (n : ℕ) : ℕ :=
  if n < 2 then byteSum (buf.take n)
  else byteAt buf 0 + 257 * byteSum (buf.take (n / 2)).tail + (256 + n % 2) * byteAt buf (n / 2)

theorem halfSum_add_two (b c : UInt8) (buf : List UInt8) (n : ℕ) :
    halfSum (b :: c :: buf) (n + 2) = b.toNat + 256 * c.toNat + halfSum (c :: buf) n := by
  have hhalf : (n + 2) / 2 = n / 2 + 1 := by omega
  have hodd : (n + 2) % 2 = n % 2 := by omega
  by_cases hn : n < 2
  · have hzero : n / 2 = 0 := by omega
    interval_cases n
    · simp [halfSum, byteSum, byteAt]
    · simp [halfSum, byteSum, byteAt]
      omega
  · obtain ⟨k, hk⟩ : ∃ k, n / 2 = k + 1 := ⟨n / 2 - 1, by omega⟩
    simp only [halfSum, if_neg hn, if_neg (show ¬n + 2 < 2 by omega), hhalf, hodd, hk]
    simp [byteSum, byteAt]
    ring

/-- The loop stays inside the buffer and adds `halfSum`. -/
theorem checksumLoop_eq (buf : List UInt8) {pos bsize sum : ℕ} (hsum : sum < 2^32)
    (hfit : pos + bsize ≤ buf.length) :
    checksumLoop buf pos bsize sum = .ok ((sum + halfSum (buf.drop pos) bsize) % 2^32) := by
  induction pos, bsize, sum using checksumLoop.induct with
  | case1 pos bsize sum ih =>
    -- A word is added, and the buffer moves on by one byte only.
    obtain ⟨b, c, rest, hrest⟩ : ∃ b c rest, buf.drop pos = b :: c :: rest := by
      have hlen : (buf.drop pos).length = buf.length - pos := List.length_drop
      match h : buf.drop pos with
      | [] => simp [h] at hlen; omega
      | [_] => simp [h] at hlen; omega
      | b :: c :: rest => exact ⟨b, c, rest, rfl⟩
    have hnext : buf.drop (pos + 1) = c :: rest := by
      rw [← List.drop_drop, hrest]
      rfl
    have hload : load buf pos 2 = .ok [b, c] := by
      rw [load_of_le (by omega), hrest]
      rfl
    have hword : beNat [b, c].reverse = b.toNat + 256 * c.toNat := by
      simp [beNat]
      ring
    rw [checksumLoop, hload, ok_bind, ih _ (Nat.mod_lt _ (by norm_num)) (by omega), hword, hrest,
      hnext, halfSum_add_two, Nat.mod_add_mod, add_assoc]
  | case2 pos sum =>
    have hload : load buf pos 1 = .ok ((buf.drop pos).take 1) := load_of_le (by omega)
    have hbyte : beNat ((buf.drop pos).take 1) = halfSum (buf.drop pos) 1 := by
      cases buf.drop pos <;> simp [beNat, halfSum, byteSum]
    rw [checksumLoop, hload, ok_bind, hbyte]
    rfl
  | case3 pos sum =>
    rw [checksumLoop, Nat.mod_eq_of_lt (by simpa [halfSum, byteSum] using hsum)]
    simp [halfSum, byteSum]

/-! ## Folding -/

theorem checksumFold_le (sum : ℕ) : checksumFold sum ≤ 2^16 - 1 := by
  induction sum using checksumFold.induct with
  | case1 sum h =>
    rw [checksumFold, dif_pos h]
    omega
  | case2 sum h ih => rwa [checksumFold, dif_neg h]

theorem checksumFold_eq (sum : ℕ) : checksumFold sum = canon (2^16 - 1) sum := by
  have hcanon : canon (2^16 - 1) (checksumFold sum) = canon (2^16 - 1) sum := by
    induction sum using checksumFold.induct with
    | case1 sum h => rw [checksumFold, dif_pos h]
    | case2 sum h ih => rw [checksumFold, dif_neg h, ih, ← canon_foldStep 16 sum, foldStep]
  rw [← hcanon, canon_of_le (checksumFold_le sum)]

/-- What `checksum` returns: it never leaves the buffer. -/
theorem checksum_eq (buf : List UInt8) :
    checksum buf = .ok (2^32 - 1 - canon (2^16 - 1) (halfSum buf buf.length % 2^32)) := by
  rw [checksum, checksumLoop_eq buf (by norm_num) (by omega), ok_bind, List.drop_zero, zero_add,
    checksumFold_eq]
  rfl

/-! ## Where the two agree -/

/-- What the bytes of a key must satisfy: the half of the key that the loop reads, weighted as it
adds it, and the whole key as 16-bit words agree under `2^16 - 1`, and are both 0 or both not. -/
def HalfStandsForWhole (key : List UInt8) : Prop :=
  (halfSum key key.length % 2^32 = 0 ↔ ∀ b ∈ key, b = 0) ∧
    halfSum key key.length % 2^32 ≡ (hostWords key).sum [MOD 2^16 - 1]

/-- The words of a key sum to 0 only when every byte is 0. -/
theorem sum_hostWords_eq_zero {key : List UInt8} : (hostWords key).sum = 0 ↔ ∀ b ∈ key, b = 0 := by
  induction key using hostWords.induct with
  | case1 => simp [hostWords]
  | case2 b =>
    simp only [hostWords, List.sum_singleton, List.mem_singleton, forall_eq]
    rw [← UInt8.toNat_inj, UInt8.toNat_zero]
  | case3 b c buf ih =>
    simp only [hostWords, List.sum_cons, List.forall_mem_cons, ← UInt8.toNat_inj, UInt8.toNat_zero]
    rw [Nat.add_eq_zero_iff, ih]
    simp only [← UInt8.toNat_inj, UInt8.toNat_zero]
    constructor
    · rintro ⟨h, hrest⟩
      exact ⟨by omega, by omega, hrest⟩
    · rintro ⟨hb, hc, hrest⟩
      exact ⟨by omega, hrest⟩

/-- The low 16 bits of the hash are the Internet checksum exactly for the keys of which the half that
is read stands for the whole. -/
theorem checksum_iff (key : List UInt8) :
    (∃ sum, checksum key = .ok sum ∧ sum % 2^16 = internetChecksum key) ↔ HalfStandsForWhole key := by
  have hread := canon_le (show 0 < 2^16 - 1 by norm_num) (halfSum key key.length % 2^32)
  have hwhole := canon_le (show 0 < 2^16 - 1 by norm_num) (hostWords key).sum
  have hlow : (2^32 - 1 - canon (2^16 - 1) (halfSum key key.length % 2^32)) % 2^16 =
      2^16 - 1 - canon (2^16 - 1) (halfSum key key.length % 2^32) := by omega
  have hcanon : canon (2^16 - 1) (halfSum key key.length % 2^32) =
      canon (2^16 - 1) (hostWords key).sum ↔ HalfStandsForWhole key := by
    rw [canon_eq_iff, sum_hostWords_eq_zero, HalfStandsForWhole]
  rw [← hcanon, checksum_eq, internetChecksum_eq]
  constructor
  · rintro ⟨sum, h, hsum⟩
    rw [← Except.ok.inj h, hlow] at hsum
    omega
  · intro h
    refine ⟨_, rfl, ?_⟩
    rw [hlow, h]

/-- A key whose last byte the loop never reads. -/
theorem checksum_ne_internetChecksum :
    ¬∃ sum, checksum [0, 0, 1] = .ok sum ∧ sum % 2^16 = internetChecksum [0, 0, 1] := by
  have hfold : checksumFold 0 = 0 := by rw [checksumFold, dif_pos (by norm_num)]
  have hsum : checksum [0, 0, 1] = .ok (2^32 - 1) := by
    rw [checksum, show checksumLoop [0, 0, 1] 0 [0, 0, (1 : UInt8)].length 0 = .ok 0 from rfl, ok_bind,
      hfold]
    rfl
  rintro ⟨sum, h, hlow⟩
  rw [← Except.ok.inj (hsum.symm.trans h)] at hlow
  exact absurd hlow (by decide)

/-- Every key of length `n` is hashed as RFC 1071 says exactly when `n` is at most 2. -/
theorem halfStandsForWhole_forall_iff (n : ℕ) :
    (∀ key : List UInt8, key.length = n → HalfStandsForWhole key) ↔ n ≤ 2 := by
  constructor
  · intro h
    by_contra hn
    -- The last byte of a longer key is not in the half that is read.
    have hkey := (h (List.replicate (n - 1) 0 ++ [1]) (by simp; omega)).1
    have hlen : (List.replicate (n - 1) (0 : UInt8) ++ [1]).length = n := by simp; omega
    have hbyte : ∀ i < n - 1, byteAt (List.replicate (n - 1) 0 ++ [1]) i = 0 := by
      intro i hi
      rw [byteAt, List.getD_append _ _ _ _ (by simpa using hi), List.getD_replicate _ hi]
      rfl
    have htake : byteSum ((List.replicate (n - 1) (0 : UInt8) ++ [1]).take (n / 2)).tail = 0 := by
      rw [List.take_append_of_le_length (by simp; omega)]
      simp [byteSum]
    have hhalf : halfSum (List.replicate (n - 1) 0 ++ [1]) n = 0 := by
      rw [halfSum, if_neg (by omega), hbyte 0 (by omega), htake, hbyte (n / 2) (by omega)]
      simp
    rw [hlen, hhalf] at hkey
    exact absurd (hkey.mp rfl 1 (by simp)) (by decide)
  · intro hn key hlen
    have hsame : halfSum key key.length = (hostWords key).sum ∧ halfSum key key.length < 2^32 := by
      match key with
      | [] => simp [halfSum, byteSum, hostWords]
      | [b] =>
        have hb := b.toNat_lt
        simp [halfSum, byteSum, hostWords]
        omega
      | [b, c] =>
        have hb := b.toNat_lt
        have hc := c.toNat_lt
        simp [halfSum, byteSum, byteAt, hostWords]
        omega
      | b :: c :: d :: rest =>
        simp at hlen
        omega
    rw [HalfStandsForWhole, Nat.mod_eq_of_lt hsame.2, hsame.1]
    exact ⟨sum_hostWords_eq_zero, Nat.ModEq.refl _⟩

end Moc
