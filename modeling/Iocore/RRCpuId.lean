import Iocore.Defs
import Iocore.Foundation.RoundRobin

/-!
# Round-robin assignment of cores

`RRCpuId` counts its calls in 32 bits and takes the count modulo the number of
cores.  When the counter starts over, the turns go on where they were only if
the number of cores is a power of two.
-/

namespace Iocore

open Foundation

def numCores (build : Build) (online : UInt32) : Code UInt32 := do
  build.assert (online ≥ 1)
  return online

structure RRCpuId where
  nextId : UInt32
  deriving DecidableEq, Repr

namespace RRCpuId

def construct : RRCpuId := ⟨0⟩

def getId (build : Build) (online : UInt32) (ids : RRCpuId) :
    Code (UInt32 × RRCpuId) := do
  let cores ← numCores build online
  if cores = 0 then .error .undefinedBehaviour
  else return (ids.nextId % cores, ⟨ids.nextId + 1⟩)

def getIds (build : Build) (online : UInt32) :
    ℕ → RRCpuId → Code (List UInt32 × RRCpuId)
  | 0, ids => .ok ([], ids)
  | calls + 1, ids => do
      let (id, ids) ← getId build online ids
      let (rest, ids) ← getIds build online calls ids
      return (id :: rest, ids)

variable {build : Build} {n : UInt32}

theorem getId_eq (hn : n ≠ 0) (ids : RRCpuId) :
    getId build n ids = .ok (ids.nextId % n, ⟨ids.nextId + 1⟩) := by
  have hone : (1 : UInt32) ≤ n := by
    rw [UInt32.le_iff_toNat_le]
    exact Nat.pos_of_ne_zero fun h => hn (UInt32.toNat_inj.mp h)
  rw [getId, numCores, decide_eq_true hone, Build.assert_true, Code.ok_bind]
  exact if_neg hn

variable (build) in
theorem getIds_eq (hn : n ≠ 0) (calls k : ℕ) :
    ∃ results, getIds build n calls ⟨UInt32.ofNat k⟩ =
        .ok (results, ⟨UInt32.ofNat (k + calls)⟩) ∧
      results.map UInt32.toNat =
        (List.range calls).map fun i => (k + i) % 2 ^ 32 % n.toNat := by
  induction calls generalizing k with
  | zero => exact ⟨[], rfl, rfl⟩
  | succ calls ih =>
      obtain ⟨rest, hrest, hmap⟩ := ih (k + 1)
      have hnext : UInt32.ofNat k + 1 = UInt32.ofNat (k + 1) :=
        (UInt32.ofNat_add k 1).symm
      have hcount : k + 1 + calls = k + (calls + 1) := by omega
      refine ⟨UInt32.ofNat k % n :: rest, ?_, ?_⟩
      · rw [getIds, getId_eq hn, Code.ok_bind, hnext]
        dsimp only
        rw [hrest, hcount]
        rfl
      · rw [List.map_cons, hmap, List.range_succ_eq_map, List.map_cons,
          List.map_map]
        congr 1
        refine List.map_congr_left fun i _ => ?_
        rw [Function.comp_apply, Nat.succ_eq_add_one, Nat.add_assoc,
          Nat.add_comm 1]

/-- The round of calls after `calls` ones serves every core once. -/
def FairAfter (build : Build) (n : UInt32) (calls : ℕ) : Prop :=
  ∃ before ids round ids', getIds build n calls construct = .ok (before, ids) ∧
    getIds build n n.toNat ids = .ok (round, ids') ∧
    (round.map UInt32.toNat).Perm (List.range n.toNat)

def EvenAfter (build : Build) (n : UInt32) (calls : ℕ) : Prop :=
  ∃ results ids, getIds build n calls construct = .ok (results, ids) ∧
    ∀ x < n, ∀ y < n, results.count x ≤ results.count y + 1

theorem fairAfter_iff (hn : n ≠ 0) (calls : ℕ) : FairAfter build n calls ↔
    n.toNat ∣ 2 ^ 32 ∨ calls % 2 ^ 32 + n.toNat ≤ 2 ^ 32 := by
  have hpos : 0 < n.toNat :=
    Nat.pos_of_ne_zero fun h => hn (UInt32.toNat_inj.mp h)
  rw [← RoundRobin.perm_iff hpos n.toNat_lt.le, RoundRobin.turns]
  obtain ⟨before, hbefore, -⟩ := getIds_eq build hn calls 0
  obtain ⟨round, hround, hturns⟩ := getIds_eq build hn n.toNat calls
  rw [Nat.zero_add] at hbefore
  rw [← hturns]
  constructor
  · rintro ⟨before', ids, round', ids', hbefore', hround', hperm⟩
    cases hbefore.symm.trans hbefore'
    cases hround.symm.trans hround'
    exact hperm
  · exact fun hperm => ⟨_, _, _, _, hbefore, hround, hperm⟩

theorem evenAfter_iff (hn : n ≠ 0) (calls : ℕ) : EvenAfter build n calls ↔
    n.toNat ∣ 2 ^ 32 ∨ calls / 2 ^ 32 = 0 ∨
      calls / 2 ^ 32 = 1 ∧ calls % 2 ^ 32 % n.toNat = 0 := by
  have hpos : 0 < n.toNat :=
    Nat.pos_of_ne_zero fun h => hn (UInt32.toNat_inj.mp h)
  obtain ⟨results, hresults, hturns⟩ := getIds_eq build hn calls 0
  have hload (x : UInt32) : results.count x =
      RoundRobin.load (2 ^ 32) n.toNat calls x.toNat := by
    rw [← List.count_map_of_injective results UInt32.toNat
      (fun _ _ => UInt32.toNat_inj.mp), hturns, RoundRobin.load, List.count,
      List.countP_map]
    refine List.countP_congr fun j _ => ?_
    simp
  rw [← RoundRobin.even_iff hpos (by decide)]
  constructor
  · rintro ⟨results', ids, hresults', heven⟩ x hx y hy
    cases hresults.symm.trans hresults'
    have hcore (z : ℕ) (hz : z < n.toNat) : (UInt32.ofNat z).toNat = z :=
      UInt32.toNat_ofNat_of_lt' (hz.trans n.toNat_lt)
    have hxy := heven (UInt32.ofNat x)
      (UInt32.lt_iff_toNat_lt.mpr (by rwa [hcore x hx])) (UInt32.ofNat y)
      (UInt32.lt_iff_toNat_lt.mpr (by rwa [hcore y hy]))
    rwa [hload, hload, hcore x hx, hcore y hy] at hxy
  · intro heven
    refine ⟨results, _, hresults, fun x hx y hy => ?_⟩
    rw [hload, hload]
    exact heven _ (UInt32.lt_iff_toNat_lt.mp hx) _ (UInt32.lt_iff_toNat_lt.mp hy)

theorem getId_fair_iff (hn : n ≠ 0) (calls : ℕ) :
    (FairAfter build n calls ↔
      n.toNat ∣ 2 ^ 32 ∨ calls % 2 ^ 32 + n.toNat ≤ 2 ^ 32) ∧
    (EvenAfter build n calls ↔
      n.toNat ∣ 2 ^ 32 ∨ calls / 2 ^ 32 = 0 ∨
        calls / 2 ^ 32 = 1 ∧ calls % 2 ^ 32 % n.toNat = 0) :=
  ⟨fairAfter_iff hn calls, evenAfter_iff hn calls⟩

theorem getId_fair_four :
    FairAfter defaultBuild 4 (2 ^ 32 - 1) ∧ EvenAfter defaultBuild 4 (2 ^ 33) :=
  ⟨(getId_fair_iff (by decide) (2 ^ 32 - 1)).1.mpr (.inl (by decide)),
    (getId_fair_iff (by decide) (2 ^ 33)).2.mpr (.inl (by decide))⟩

theorem getId_unfair_three :
    (∃ before ids ids',
      getIds defaultBuild 3 (2 ^ 32 - 1) construct = .ok (before, ids) ∧
        getIds defaultBuild 3 3 ids = .ok ([0, 0, 1], ids')) ∧
      ¬ FairAfter defaultBuild 3 (2 ^ 32 - 1) := by
  constructor
  · obtain ⟨before, hbefore, -⟩ :=
      getIds_eq defaultBuild (n := 3) (by decide) (2 ^ 32 - 1) 0
    exact ⟨before, _, ⟨2⟩, hbefore, by decide⟩
  · rw [fairAfter_iff (by decide)]
    decide

end RRCpuId

end Iocore
