import Iocore.Logger.Message
import Iocore.RRCpuId
import Iocore.Singleton

/-!
# Threads that are bound to cores

`SetProcessorAffinity` binds a thread to the core whose turn it is.  The system
refuses a set of cores of which the thread can use none: a core that is off, or
that does not fit into a `cpu_set_t`.  Then the check behind the call aborts.

The calls are made one after the other, since `RRCpuId` counts without a lock.
-/

namespace Iocore.Thread.Affinity

open Foundation Logger

abbrev CpuSet := Finset ℕ

def cpuSetsize : ℕ := 1024

/-- `CPU_SET`, which ignores what does not fit. -/
def cpuSet (core : ℕ) (cpuset : CpuSet) : CpuSet :=
  if core < cpuSetsize then insert core cpuset else cpuset

structure State (Tid : Type) where
  logger : Option Logger
  cpuId : Option RRCpuId
  affinity : Tid → CpuSet

structure Call (Tid : Type) where
  thread : Tid
  log : Text
  timestamp : Text

variable {Tid : Type} [DecidableEq Tid]

/-- `pthread_setaffinity_np`, with the cores that threads can use. -/
def setaffinity (usable : CpuSet) (affinity : Tid → CpuSet) (i : Tid)
    (cpuset : CpuSet) : Bool × (Tid → CpuSet) :=
  if cpuset ∩ usable = ∅ then (false, affinity)
  else (true, Function.update affinity i (cpuset ∩ usable))

def statement (core : UInt32) (call : Call Tid) : Statement :=
  ⟨.info, call.log, ["Binding to core ".toList, (toString core).toList],
    call.timestamp⟩

def setProcessorAffinity (build : Build) (online : UInt32) (usable : CpuSet)
    (s : State Tid) (call : Call Tid) : Code (State Tid) := do
  let ids ← Singleton.get build s.cpuId
  let (core, ids) ← ids.getId build online
  let logger ← Singleton.get build s.logger
  let logger ← (statement core call).message.destroy call.timestamp logger
  let cpuset := cpuSet core.toNat ∅
  let (ok, affinity) := setaffinity usable s.affinity call.thread cpuset
  invariant ok
  return ⟨some logger, some ids, affinity⟩

def run (build : Build) (online : UInt32) (usable : CpuSet)
    (calls : List (Call Tid)) (s : State Tid) : Code (State Tid) :=
  calls.foldlM (setProcessorAffinity build online usable) s

def setUp (file : Option Text) (affinity : Tid → CpuSet) : State Tid :=
  ⟨some (Logger.construct file).attachWriter, some RRCpuId.construct, affinity⟩

/-! ## One call -/

def core (online : UInt32) (j : ℕ) : UInt32 := UInt32.ofNat j % online

theorem core_toNat (online : UInt32) (j : ℕ) :
    (core online j).toNat = j % 2 ^ 32 % online.toNat := by
  rw [core, UInt32.toNat_mod, UInt32.toNat_ofNat']

def Usable (usable : CpuSet) (core : ℕ) : Prop :=
  core < cpuSetsize ∧ core ∈ usable

instance (usable : CpuSet) (core : ℕ) : Decidable (Usable usable core) := by
  unfold Usable
  infer_instance

theorem setaffinity_of_usable {usable : CpuSet} {c : ℕ}
    (h : Usable usable c) (affinity : Tid → CpuSet) (i : Tid) :
    setaffinity usable affinity i (cpuSet c ∅) =
      (true, Function.update affinity i {c}) := by
  have hset : cpuSet c ∅ ∩ usable = {c} := by
    rw [cpuSet, if_pos h.1]
    exact Finset.singleton_inter_of_mem h.2
  rw [setaffinity, hset, if_neg (Finset.singleton_ne_empty c)]

theorem setaffinity_of_not_usable {usable : CpuSet} {c : ℕ}
    (h : ¬ Usable usable c) (affinity : Tid → CpuSet) (i : Tid) :
    setaffinity usable affinity i (cpuSet c ∅) = (false, affinity) := by
  have hset : cpuSet c ∅ ∩ usable = ∅ := by
    unfold cpuSet
    split
    case isTrue hlt =>
      exact Finset.singleton_inter_of_notMem fun hmem => h ⟨hlt, hmem⟩
    case isFalse => exact Finset.empty_inter usable
  rw [setaffinity, if_pos hset]

/-! ## Calls one after the other -/

def entries (online : UInt32) (calls : List (Call Tid)) :
    List (Text × Priority) :=
  calls.mapIdx fun j call =>
    ((statement (core online j) call).text, .highPriority)

structure Bound (file : Option Text) (online : UInt32) (usable : CpuSet)
    (affinity : Tid → CpuSet) (calls : List (Call Tid)) (s : State Tid) :
    Prop where
  cpuId : s.cpuId = some ⟨UInt32.ofNat calls.length⟩
  logger : s.logger = some ⟨loadLogrc file, some (entries online calls)⟩
  last : ∀ j (hj : j < calls.length),
    (∀ call ∈ calls.drop (j + 1), call.thread ≠ calls[j].thread) →
      s.affinity calls[j].thread = {(core online j).toNat}
  others : ∀ i, (∀ call ∈ calls, call.thread ≠ i) → s.affinity i = affinity i
  usable : ∀ j < calls.length, Usable usable (core online j).toNat

variable {build : Build} {file : Option Text} {online : UInt32}
  {usable : CpuSet} {affinity : Tid → CpuSet} {calls : List (Call Tid)}
  {s : State Tid}

omit [DecidableEq Tid] in
theorem Bound.initial : Bound file online usable affinity []
    (setUp file affinity) where
  cpuId := rfl
  logger := rfl
  last j hj := absurd hj (Nat.not_lt_zero j)
  others _ _ := rfl
  usable j hj := absurd hj (Nat.not_lt_zero j)

omit [DecidableEq Tid] in
theorem destroy_statement (core : UInt32) (call : Call Tid)
    {out : List (Text × Priority)} :
    (statement core call).message.destroy call.timestamp
        ⟨loadLogrc file, some out⟩ =
      .ok ⟨loadLogrc file,
        some (out ++ [((statement core call).text, .highPriority)])⟩ := by
  have hdelivered : (statement core call).Delivered file :=
    .inl ⟨LogType.noConfusion, LogType.noConfusion⟩
  have hlogrc : (⟨loadLogrc file, some out⟩ : Logger).logrc = loadLogrc file :=
    rfl
  have hdestroy := destroy_eq (statement core call) hlogrc rfl
  rw [if_pos hdelivered] at hdestroy
  exact hdestroy

def State.bindTo (s : State Tid) (file : Option Text) (online : UInt32)
    (calls : List (Call Tid)) (call : Call Tid) : State Tid where
  logger := some ⟨loadLogrc file, some (entries online (calls ++ [call]))⟩
  cpuId := some ⟨UInt32.ofNat (calls.length + 1)⟩
  affinity := Function.update s.affinity call.thread
    {(core online calls.length).toNat}

theorem State.bindTo_affinity (call : Call Tid) :
    (s.bindTo file online calls call).affinity = Function.update s.affinity
      call.thread {(core online calls.length).toNat} := rfl

theorem Bound.call_eq (h : Bound file online usable affinity calls s)
    (hn : online ≠ 0) (call : Call Tid) :
    setProcessorAffinity build online usable s call =
      if Usable usable (core online calls.length).toNat then
        .ok (s.bindTo file online calls call)
      else .error .aborted := by
  have hnext : UInt32.ofNat calls.length + 1 = UInt32.ofNat (calls.length + 1) :=
    (UInt32.ofNat_add calls.length 1).symm
  have hentries : entries online (calls ++ [call]) = entries online calls ++
      [((statement (core online calls.length) call).text, .highPriority)] := by
    simp [entries, List.mapIdx_append]
  rw [setProcessorAffinity, h.cpuId, Singleton.get_some, Code.ok_bind,
    RRCpuId.getId_eq hn, Code.ok_bind]
  dsimp only
  rw [h.logger, Singleton.get_some, Code.ok_bind, ← core,
    destroy_statement, Code.ok_bind, hnext, ← hentries]
  split
  case isTrue husable =>
    rw [setaffinity_of_usable husable]
    rfl
  case isFalse husable =>
    rw [setaffinity_of_not_usable husable]
    rfl

theorem Bound.next (h : Bound file online usable affinity calls s)
    (call : Call Tid) (husable : Usable usable (core online calls.length).toNat) :
    Bound file online usable affinity (calls ++ [call])
      (s.bindTo file online calls call) where
  cpuId := by
    rw [List.length_append, List.length_singleton]
    rfl
  logger := rfl
  last j hj hlast := by
    rw [List.length_append, List.length_singleton] at hj
    rcases Nat.lt_succ_iff_lt_or_eq.mp hj with hlt | rfl
    · rw [List.getElem_append_left hlt] at hlast ⊢
      rw [List.drop_append_of_le_length (Nat.succ_le_of_lt hlt)] at hlast
      have hnew := hlast call (List.mem_append_right _ List.mem_cons_self)
      rw [State.bindTo_affinity, Function.update_of_ne hnew.symm]
      exact h.last j hlt fun call hmem => hlast call (List.mem_append_left _ hmem)
    · rw [List.getElem_append_right le_rfl]
      simp [State.bindTo_affinity]
  others i hi := by
    have hnew := hi call (List.mem_append_right _ List.mem_cons_self)
    rw [State.bindTo_affinity, Function.update_of_ne hnew.symm]
    exact h.others i fun call hmem => hi call (List.mem_append_left _ hmem)
  usable j hj := by
    rw [List.length_append, List.length_singleton] at hj
    rcases Nat.lt_succ_iff_lt_or_eq.mp hj with hlt | rfl
    · exact h.usable j hlt
    · exact husable

theorem run_cases (build : Build) (hn : online ≠ 0) (calls : List (Call Tid)) :
    (∃ s, run build online usable calls (setUp file affinity) = .ok s ∧
      Bound file online usable affinity calls s) ∨
    run build online usable calls (setUp file affinity) = .error .aborted ∧
      ∃ j < calls.length, ¬ Usable usable (core online j).toNat := by
  induction calls using List.reverseRecOn with
  | nil => exact .inl ⟨_, rfl, .initial⟩
  | append_singleton calls call ih =>
      unfold run at ih ⊢
      rw [List.foldlM_append]
      rcases ih with ⟨s, hrun, hbound⟩ | ⟨hrun, j, hj, hrefused⟩
      · rw [hrun, Code.ok_bind, List.foldlM_cons, hbound.call_eq hn call]
        split
        case isTrue husable => exact .inl ⟨_, rfl, hbound.next call husable⟩
        case isFalse hrefused =>
          exact .inr ⟨rfl, calls.length, by simp, hrefused⟩
      · rw [hrun]
        refine .inr ⟨rfl, j, ?_, hrefused⟩
        rw [List.length_append]
        omega

/-! ## All calls -/

def boundTo (calls : List (Call Tid)) (s : State Tid) (x : ℕ) : ℕ :=
  calls.countP fun call => s.affinity call.thread = {x}

omit [DecidableEq Tid] in
theorem Bound.boundTo_eq (h : Bound file online usable affinity calls s)
    (distinct : (calls.map Call.thread).Nodup) (x : ℕ) :
    boundTo calls s x =
      RoundRobin.load (2 ^ 32) online.toNat calls.length x := by
  have hcores : calls.map (fun call => s.affinity call.thread) =
      (List.range calls.length).map fun j => {(core online j).toNat} := by
    refine List.ext_getElem (by simp) fun j hj _ => ?_
    rw [List.length_map] at hj
    rw [List.getElem_map, List.getElem_map, List.getElem_range]
    refine h.last j hj fun call hmem hsame => ?_
    rw [← List.take_append_drop (j + 1) calls, List.map_append,
      List.nodup_append] at distinct
    refine distinct.2.2 _ (List.mem_map_of_mem ?_) _
      (List.mem_map_of_mem hmem) hsame.symm
    exact List.mem_take_iff_getElem.mpr ⟨j, by omega, rfl⟩
  have hcount : boundTo calls s x =
      (calls.map fun call => s.affinity call.thread).countP (· = {x}) := by
    rw [boundTo, List.countP_map]
    rfl
  rw [hcount, hcores, List.countP_map, RoundRobin.load]
  refine List.countP_congr fun j _ => ?_
  simp [core_toNat]

theorem forall_core_iff (hn : online ≠ 0) (n : ℕ) (P : ℕ → Prop) :
    (∀ j < n, P (core online j).toNat) ↔ ∀ c < min n online.toNat, P c := by
  have hpos : 0 < online.toNat :=
    Nat.pos_of_ne_zero fun h => hn (UInt32.toNat_inj.mp h)
  have hsize : online.toNat < 2 ^ 32 := online.toNat_lt
  constructor
  · intro hcores c hc
    have hcore : (core online c).toNat = c := by
      have honline : c < online.toNat := by omega
      rw [core_toNat, Nat.mod_eq_of_lt (honline.trans hsize),
        Nat.mod_eq_of_lt honline]
    rw [← hcore]
    exact hcores c (by omega)
  · intro hfirst j hj
    refine hfirst _ (lt_min ?_ ?_)
    · rw [core_toNat]
      exact ((Nat.mod_le _ _).trans (Nat.mod_le _ _)).trans_lt hj
    · rw [core_toNat]
      exact Nat.mod_lt _ hpos

/--
If the cores that come up can be used, the calls go through, and each thread is
bound to the core of its last call alone.  If no thread is bound twice, two
cores differ by at most one thread, and by one more for each time that the
32-bit count started over.  Otherwise a call aborts.
-/
theorem bindings_spread (build : Build) (file : Option Text) (usable : CpuSet)
    (affinity : Tid → CpuSet) (hn : online ≠ 0) (calls : List (Call Tid)) :
    if ∀ c < min calls.length online.toNat, Usable usable c then
      ∃ s, run build online usable calls (setUp file affinity) = .ok s ∧
        Bound file online usable affinity calls s ∧
        ((calls.map Call.thread).Nodup → ∀ x y, x ≤ y → y < online.toNat →
          boundTo calls s y ≤ boundTo calls s x ∧
          boundTo calls s x ≤ boundTo calls s y + calls.length / 2 ^ 32 + 1)
    else run build online usable calls (setUp file affinity) =
      .error .aborted := by
  have hcores := forall_core_iff hn calls.length (Usable usable)
  rcases run_cases build hn calls with
    ⟨s, hrun, hbound⟩ | ⟨hrun, j, hj, hrefused⟩
  · rw [if_pos (hcores.mp hbound.usable)]
    refine ⟨s, hrun, hbound, fun distinct x y hxy hy => ?_⟩
    rw [hbound.boundTo_eq distinct, hbound.boundTo_eq distinct]
    exact RoundRobin.load_between (by decide) hxy hy
  · rw [if_neg fun husable => hrefused (hcores.mpr husable j hj)]
    exact hrun

theorem three_threads_spread :
    (∃ s, run defaultBuild 2 {0, 1} ([0, 1, 2].map fun i => ⟨i, ['/'], []⟩)
        (setUp none fun _ : Fin 3 => {0, 1}) = .ok s ∧
      s.affinity 1 = {1} ∧ s.affinity 2 = {0}) ∧
    run defaultBuild 2 {0, 2} ([0, 1, 2].map fun i => ⟨i, ['/'], []⟩)
      (setUp none fun _ : Fin 3 => {0, 2}) = .error .aborted := by
  have htwo : (2 : UInt32) ≠ 0 := by decide
  constructor
  · have hspread := bindings_spread defaultBuild none {0, 1}
      (fun _ : Fin 3 => {0, 1}) htwo ([0, 1, 2].map fun i => ⟨i, ['/'], []⟩)
    rw [if_pos (by decide)] at hspread
    obtain ⟨s, hrun, hbound, -⟩ := hspread
    exact ⟨s, hrun, hbound.last 1 (by decide) (by decide),
      hbound.last 2 (by decide) (by decide)⟩
  · have hrefused := bindings_spread defaultBuild none {0, 2}
      (fun _ : Fin 3 => {0, 2}) htwo ([0, 1, 2].map fun i => ⟨i, ['/'], []⟩)
    rw [if_neg (by decide)] at hrefused
    exact hrefused

end Iocore.Thread.Affinity
