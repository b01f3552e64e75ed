import Iocore.Foundation.Checksum

/-!
# The checksum wrapper

`Adler32` passes its bytes to `adler32` of zlib, which continues a checksum
that it is given.  The checksum of an empty string has 1 in its low half, and
`Calc` and the object both begin with 0.  So what they compute agrees, however
the string was cut, and is the Adler-32 of no string.
-/

namespace Iocore

open Foundation

abbrev Buffer := { data : List UInt8 // data.length < 2 ^ 32 }

def Buffer.bytes (buffer : Buffer) : List ℕ := buffer.val.map UInt8.toNat

structure Adler32 where
  cksum : UInt32
  deriving DecidableEq, Repr

namespace Adler32

/-! ## zlib -/

abbrev BASE : ℕ := 65521

def halves (cksum : UInt32) : Checksum.Sums :=
  (cksum.toNat % 2 ^ 16, cksum.toNat / 2 ^ 16)

def pack (sums : Checksum.Sums) : UInt32 :=
  UInt32.ofNat (sums.2 * 2 ^ 16 + sums.1)

/-- What zlib documents of `adler32` for a pointer that is not null. -/
def Continues (adler32 : UInt32 → Buffer → UInt32) : Prop :=
  ∀ cksum data, (halves cksum).1 < BASE → (halves cksum).2 < BASE →
    adler32 cksum data = pack (Checksum.run BASE (halves cksum) data.bytes)

def rfc1950 (data : List UInt8) : UInt32 :=
  pack (Checksum.run BASE (1, 0) (data.map UInt8.toNat))

/-! ## The members of `Adler32` -/

section Members

variable (adler32 : UInt32 → Buffer → UInt32)

def calculate (data : Buffer) : UInt32 := adler32 0 data

def construct : Adler32 := ⟨0⟩

def update (s : Adler32) (data : Buffer) : Adler32 :=
  { s with cksum := adler32 s.cksum data }

def hash (s : Adler32) : UInt32 := s.cksum

def reset (s : Adler32) : Adler32 := { s with cksum := 0 }

end Members

/-! ## What is computed -/

theorem halves_pack {sums : Checksum.Sums} (low : sums.1 < BASE)
    (high : sums.2 < BASE) : halves (pack sums) = sums := by
  unfold BASE at low high
  have hpack : (pack sums).toNat = sums.2 * 2 ^ 16 + sums.1 :=
    UInt32.toNat_ofNat_of_lt' (by
      change _ < 2 ^ 32
      omega)
  rw [halves, hpack]
  apply Prod.ext
  · change (sums.2 * 2 ^ 16 + sums.1) % 2 ^ 16 = sums.1
    omega
  · change (sums.2 * 2 ^ 16 + sums.1) / 2 ^ 16 = sums.2
    omega

theorem run_eq_of_pack {s t : Checksum.Sums} (hs : s.1 < BASE ∧ s.2 < BASE)
    (ht : t.1 < BASE ∧ t.2 < BASE) {data rest : List ℕ}
    (h : pack (Checksum.run BASE s data) = pack (Checksum.run BASE t rest)) :
    Checksum.run BASE s data = Checksum.run BASE t rest := by
  have hdata := Checksum.run_lt hs.1 hs.2 data
  have hrest := Checksum.run_lt ht.1 ht.2 rest
  rw [← halves_pack hdata.1 hdata.2, h, halves_pack hrest.1 hrest.2]

variable {adler32 : UInt32 → Buffer → UInt32}

theorem update_pack (h : Continues adler32) {sums : Checksum.Sums}
    (low : sums.1 < BASE) (high : sums.2 < BASE) (data : Buffer) :
    adler32 (pack sums) data = pack (Checksum.run BASE sums data.bytes) := by
  have hsums := halves_pack low high
  rw [h (pack sums) data (by rwa [hsums]) (by rwa [hsums]), hsums]

theorem cksum_updates (h : Continues adler32) {sums : Checksum.Sums}
    (low : sums.1 < BASE) (high : sums.2 < BASE) (chunks : List Buffer) :
    (chunks.foldl (update adler32) ⟨pack sums⟩).cksum =
      pack (Checksum.run BASE sums (chunks.map Buffer.bytes).flatten) := by
  induction chunks generalizing sums with
  | nil => rfl
  | cons data chunks ih =>
      have hlt := Checksum.run_lt low high data.bytes
      rw [List.foldl_cons, update, update_pack h low high, ih hlt.1 hlt.2,
        List.map_cons, List.flatten_cons, Checksum.run_append]

theorem calculate_eq (h : Continues adler32) (data : Buffer) :
    calculate adler32 data = pack (Checksum.run BASE (0, 0) data.bytes) := by
  have hzero : adler32 (pack (0, 0)) data = _ :=
    update_pack h (by decide) (by decide) data
  exact hzero

theorem bytes_flatten (chunks : List Buffer) :
    (chunks.map Buffer.bytes).flatten =
      (chunks.map Subtype.val).flatten.map UInt8.toNat := by
  rw [List.map_flatten, List.map_map]
  rfl

theorem pack_ne_rfc1950 (data : List UInt8) :
    pack (Checksum.run BASE (0, 0) (data.map UInt8.toNat)) ≠ rfc1950 data := by
  intro hsame
  have hsums := run_eq_of_pack (by decide) (by decide) hsame
  exact Checksum.run_low_ne (by decide) _ (congrArg Prod.fst hsums)

theorem calculate_zeros (h : Continues adler32) {data padded : Buffer} {k : ℕ}
    (hpadded : padded.val = List.replicate k 0 ++ data.val) :
    calculate adler32 padded = calculate adler32 data := by
  have hbytes : padded.bytes = List.replicate k 0 ++ data.bytes := by
    rw [Buffer.bytes, hpadded, List.map_append, List.map_replicate]
    rfl
  rw [calculate_eq h, calculate_eq h, hbytes, Checksum.run_append,
    Checksum.run_zeros (by decide) (by decide), Nat.mul_zero]
  rfl

/-- RFC 1950 tells apart what differs by fewer leading zeros than `BASE`. -/
theorem rfc1950_zeros (data : List UInt8) {j k : ℕ} (less : j < k)
    (near : k - j < BASE) : rfc1950 (List.replicate j 0 ++ data) ≠
      rfc1950 (List.replicate k 0 ++ data) := by
  intro hsame
  have hsums := run_eq_of_pack (by decide) (by decide) hsame
  have hhigh (z : ℕ) : (Checksum.run BASE (1, 0)
      ((List.replicate z 0 ++ data).map UInt8.toNat)).2 ≡
        z + (Checksum.run BASE (1, 0) (data.map UInt8.toNat)).2 [MOD BASE] := by
    have hzeros : (List.replicate z (0 : UInt8)).map UInt8.toNat =
        List.replicate z 0 := List.map_replicate
    rw [List.map_append, hzeros, Checksum.run_append,
      Checksum.run_zeros (by decide) (by decide), Nat.zero_add, Nat.mul_one]
    exact (Checksum.run_high 1 (z % BASE) _).trans
      ((Nat.mod_modEq z BASE).add_right _)
  have hsecond := hhigh j
  rw [congrArg Prod.snd hsums] at hsecond
  have hcounts : j ≡ k [MOD BASE] :=
    Nat.ModEq.add_right_cancel' _ (hsecond.symm.trans (hhigh k))
  have hdvd := (Nat.modEq_iff_dvd' less.le).mp hcounts
  have hle := Nat.le_of_dvd (Nat.sub_pos_of_lt less) hdvd
  omega

theorem hash_never_rfc1950 (h : Continues adler32) {fresh : Adler32}
    (start : fresh = construct ∨ ∃ used, fresh = reset used)
    (chunks : List Buffer) :
    hash (chunks.foldl (update adler32) fresh) ≠
        rfc1950 (chunks.map Subtype.val).flatten ∧
      ∀ whole : Buffer, (chunks.map Subtype.val).flatten = whole.val →
        hash (chunks.foldl (update adler32) fresh) =
            calculate adler32 whole ∧
          ∀ k (padded : Buffer),
            padded.val = List.replicate k 0 ++ whole.val →
              calculate adler32 padded = calculate adler32 whole := by
  have hfresh : fresh = ⟨pack (0, 0)⟩ := by
    rcases start with rfl | ⟨used, rfl⟩ <;> rfl
  have hhash : hash (chunks.foldl (update adler32) fresh) =
      pack (Checksum.run BASE (0, 0)
        ((chunks.map Subtype.val).flatten.map UInt8.toNat)) := by
    rw [hash, hfresh, cksum_updates h (by decide) (by decide), bytes_flatten]
  rw [hhash]
  refine ⟨pack_ne_rfc1950 _, fun whole cut => ⟨?_, fun k padded hpadded => ?_⟩⟩
  · rw [cut, calculate_eq h]
    rfl
  · exact calculate_zeros h hpadded

def continued (cksum : UInt32) (data : Buffer) : UInt32 :=
  pack (Checksum.run BASE (halves cksum) data.bytes)

theorem continued_continues : Continues continued :=
  fun _ _ _ _ => rfl

theorem hash_never_rfc1950_three :
    hash ([⟨[97, 98], by decide⟩, ⟨[99], by decide⟩].foldl (update continued)
        (reset ⟨77⟩)) = 0x024a0126 ∧
      calculate continued ⟨[0, 0, 97, 98, 99], by decide⟩ = 0x024a0126 ∧
      hash ([⟨[97, 98], by decide⟩, ⟨[99], by decide⟩].foldl
        (update continued) (reset ⟨77⟩)) ≠ rfc1950 [97, 98, 99] := by
  have hthree := hash_never_rfc1950 continued_continues
    (.inr ⟨⟨77⟩, rfl⟩) [⟨[97, 98], by decide⟩, ⟨[99], by decide⟩]
  obtain ⟨hcalculate, hzeros⟩ := hthree.2 ⟨[97, 98, 99], by decide⟩ rfl
  have hpadded := hzeros 2 ⟨[0, 0, 97, 98, 99], by decide⟩ rfl
  refine ⟨hcalculate.trans (by decide), hpadded.trans (by decide), hthree.1⟩

theorem hash_not_rfc1950 :
    hash (update continued construct ⟨[97], by decide⟩) = 0x00610061 ∧
      calculate continued ⟨[97], by decide⟩ = 0x00610061 ∧
      calculate continued ⟨[0, 97], by decide⟩ = 0x00610061 ∧
      rfc1950 [97] = 0x00620062 ∧ rfc1950 [0, 97] = 0x00630062 := by
  decide

end Adler32

end Iocore
