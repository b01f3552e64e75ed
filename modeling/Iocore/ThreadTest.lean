import Iocore.Logger.Message
import Iocore.RRCpuId
import Iocore.Singleton
import Iocore.Thread.Release

/-!
# The thread tests

The test program runs its tests one after the other.  Each has `UnitTest`'s
fixture, which makes and destroys the singletons, and that of `ThreadTest`,
which starts a thread for each core and deletes them in the end.  The threads
log as they start and end, so the logger has to be there for all of that.

The loops of the fixture are unrolled: `threads_` lists the threads in the
order in which they were started.  The texts that are logged are left out.
-/

namespace Iocore.ThreadTest

open Foundation Foundation.System

/-! ## The program of the main thread -/

inductive Test where
  | testStop
  | testCancel
  deriving DecidableEq, Repr

/-- One statement of the main thread; `created` logs and is `push_back`. -/
inductive Instr (n : ℕ) where
  | initLogger
  | attachWriter
  | initCpuId
  | checkEmpty
  | start (i : Fin n)
  | created (i : Fin n)
  | stop (i : Fin n)
  | cancel (i : Fin n)
  | join (i : Fin n)
  | delete (i : Fin n)
  | clear
  | destroyCpuId
  | destroyLogger
  deriving DecidableEq, Repr

variable {n : ℕ}

def setUp (n : ℕ) : List (Instr n) :=
  [.initLogger, .attachWriter, .initCpuId, .checkEmpty] ++
    (List.finRange n).flatMap fun i => [.start i, .created i]

def Test.main (n : ℕ) : Test → List (Instr n)
  | .testStop => (List.finRange n).flatMap fun i => [.stop i, .join i]
  | .testCancel => (List.finRange n).flatMap fun i => [.cancel i, .join i]

def tearDown (n : ℕ) : List (Instr n) :=
  (List.finRange n).map .delete ++ [.clear, .destroyCpuId, .destroyLogger]

def Test.code (n : ℕ) (test : Test) : List (Instr n) :=
  setUp n ++ test.main n ++ tearDown n

def program (n : ℕ) (tests : List Test) : List (Instr n) :=
  tests.flatMap (Test.code n)

/-! ## Running it -/

structure MyThread where
  thread : Thread.State Empty
  run : Bool

structure State (n : ℕ) where
  main : List (Instr n)
  logger : Option Logger
  cpuId : Option RRCpuId
  threads : Fin n → Option MyThread
  list : List (Fin n)
  deleted : List (Thread.State Empty)

inductive Action (n : ℕ) where
  | main
  | worker (i : Fin n)
  | actOnCancel (i : Fin n)
  deriving DecidableEq, Repr

def initial (n : ℕ) (tests : List Test) : State n :=
  ⟨program n tests, none, none, fun _ => none, [], []⟩

def State.setThread (s : State n) (i : Fin n) (t : Option MyThread) : State n :=
  { s with threads := Function.update s.threads i t }

variable (build : Build) (file : Option Logger.Text)

def log (s : State n) : Code Unit := do
  let logger ← Singleton.get build s.logger
  let _ ← deref logger.writer

def onThread (s : State n) (i : Fin n) (a : Thread.Action Empty) :
    Code (State n) := do
  let t ← deref (s.threads i)
  let thread ← Thread.exec t.thread a
  return s.setThread i (some { t with thread := thread })

def execInstr (s : State n) : Instr n → Code (State n)
  | .initLogger => do
      let logger ← Singleton.init build s.logger (Logger.construct file)
      return { s with logger := logger }
  | .attachWriter => do
      let logger ← Singleton.get build s.logger
      return { s with logger := some logger.attachWriter }
  | .initCpuId => do
      let cpuId ← Singleton.init build s.cpuId RRCpuId.construct
      return { s with cpuId := cpuId }
  | .checkEmpty => do
      invariant s.list.isEmpty
      return s
  | .start i => do
      let thread ← Thread.exec (Thread.initial Empty) .start
      return s.setThread i (some ⟨thread, false⟩)
  | .created i => do
      log build s
      return { s with list := s.list ++ [i] }
  | .stop i => do
      let t ← deref (s.threads i)
      return s.setThread i (some { t with run := false })
  | .cancel i => onThread s i .cancel
  | .join i => onThread s i .join
  | .delete i => do
      log build s
      let t ← deref (s.threads i)
      let thread ← Thread.exec t.thread .destruct
      return { s.setThread i none with deleted := thread :: s.deleted }
  | .clear => .ok { s with list := [] }
  | .destroyCpuId => do
      let cpuId ← Singleton.destroy build s.cpuId
      return { s with cpuId := cpuId }
  | .destroyLogger => do
      let logger ← Singleton.destroy build s.logger
      return { s with logger := logger }

def logs (pc : Thread.Pc) : Bool := pc = .init || pc = .cleanup

def worker (s : State n) (i : Fin n) : Code (State n) :=
  match s.threads i with
  | none => .error .blocked
  | some t =>
      if t.thread.pc = .threadMain then
        if t.run then .ok s else onThread s i .returnMain
      else do
        if logs t.thread.pc then log build s
        onThread s i .next

/-- In `ThreadMain` a cancellation takes effect where it sleeps. -/
def actOnCancel (s : State n) (i : Fin n) : Code (State n) :=
  match s.threads i with
  | none => .error .blocked
  | some t =>
      if t.thread.pc = .threadMain ∧ t.run = false then .error .blocked
      else onThread s i .actOnCancel

def exec (s : State n) : Action n → Code (State n)
  | .main =>
      match s.main with
      | [] => .error .blocked
      | instr :: rest => do
          let s ← execInstr build file s instr
          return { s with main := rest }
  | .worker i => worker build s i
  | .actOnCancel i => actOnCancel s i

def system (n : ℕ) (tests : List Test) : System (State n) (Action n) :=
  .ofFunction (fun s => s = initial n tests) (exec build file)

/-! ## The order of the statements -/

inductive LoggerStage where
  | absent
  | bare
  | attached
  deriving DecidableEq, Repr

/-- What the statements of the main thread depend on, without the threads' own. -/
structure Outline (n : ℕ) where
  logger : LoggerStage
  cpuId : Bool
  threads : Fin n → Option Thread.Lifetime
  list : List (Fin n)

namespace Outline

def empty (n : ℕ) : Outline n := ⟨.absent, false, fun _ => none, []⟩

def setThread (a : Outline n) (i : Fin n) (object : Option Thread.Lifetime) :
    Outline n :=
  { a with threads := Function.update a.threads i object }

def step (a : Outline n) : Instr n → Option (Outline n)
  | .initLogger =>
      if a.logger = .absent then some { a with logger := .bare } else none
  | .attachWriter =>
      if a.logger = .absent then none else some { a with logger := .attached }
  | .initCpuId => if a.cpuId then none else some { a with cpuId := true }
  | .checkEmpty => if a.list = [] then some a else none
  | .start i =>
      if a.logger = .attached ∧ a.threads i = none then
        some (a.setThread i (some .started))
      else none
  | .created i =>
      if a.logger = .attached then some { a with list := a.list ++ [i] }
      else none
  | .stop i => if a.threads i = none then none else some a
  | .cancel i => if a.threads i = some .started then some a else none
  | .join i =>
      if a.threads i = some .started then some (a.setThread i (some .joined))
      else none
  | .delete i =>
      if a.logger = .attached ∧ a.threads i = some .joined then
        some (a.setThread i none)
      else none
  | .clear => some { a with list := [] }
  | .destroyCpuId => if a.cpuId then some { a with cpuId := false } else none
  | .destroyLogger =>
      if a.logger ≠ .absent ∧ ∀ i, a.threads i = none then
        some { a with logger := .absent }
      else none

def run (a : Outline n) (code : List (Instr n)) : Option (Outline n) :=
  code.foldlM step a

theorem run_cons (a : Outline n) (instr : Instr n) (code : List (Instr n)) :
    a.run (instr :: code) = (a.step instr).bind fun a => a.run code :=
  rfl

theorem run_append (a : Outline n) (first second : List (Instr n)) :
    a.run (first ++ second) = (a.run first).bind fun a => a.run second :=
  List.foldlM_append

theorem run_loop {body : Fin n → List (Instr n)} {push : Fin n → List (Fin n)}
    {before after : Option Thread.Lifetime}
    (hbody : ∀ (a : Outline n) i,
      a.logger = .attached → a.threads i = before → a.run (body i) =
        some { a.setThread i after with list := a.list ++ push i })
    (a : Outline n) (hlogger : a.logger = .attached) {l : List (Fin n)}
    (hnodup : l.Nodup) (hbefore : ∀ i ∈ l, a.threads i = before) :
    a.run (l.flatMap body) = some { a with
      threads := fun i => if i ∈ l then after else a.threads i
      list := a.list ++ l.flatMap push } := by
  induction l generalizing a with
  | nil => simp [run]
  | cons i l ih =>
      obtain ⟨hi, hrest⟩ := List.nodup_cons.mp hnodup
      rw [List.flatMap_cons, run_append,
        hbody a i hlogger (hbefore i List.mem_cons_self), Option.bind_some,
        ih]
      · simp only [Option.some.injEq, setThread, mk.injEq, true_and,
          List.flatMap_cons, List.append_assoc, and_true]
        funext j
        by_cases hj : j = i
        · subst hj
          simp [hi]
        · simp [hj]
      · exact hlogger
      · exact hrest
      · intro j hj
        have hne : j ≠ i := by
          rintro rfl
          exact hi hj
        change Function.update a.threads i after j = before
        rw [Function.update_of_ne hne]
        exact hbefore j (List.mem_cons_of_mem i hj)

def ready (n : ℕ) (object : Option Thread.Lifetime) (list : List (Fin n)) :
    Outline n :=
  ⟨.attached, true, fun _ => object, list⟩

theorem run_loop_ready (body : Fin n → List (Instr n))
    (push : Fin n → List (Fin n)) (before after : Option Thread.Lifetime)
    (list : List (Fin n))
    (hbody : ∀ (a : Outline n) i,
      a.logger = .attached → a.threads i = before → a.run (body i) =
        some { a.setThread i after with list := a.list ++ push i }) :
    (ready n before list).run ((List.finRange n).flatMap body) =
      some (ready n after (list ++ (List.finRange n).flatMap push)) := by
  rw [run_loop hbody (ready n before list) rfl (List.nodup_finRange n)
    fun _ _ => rfl]
  simp [ready]

theorem run_setUp :
    (empty n).run (setUp n) =
      some (ready n (some .started) (List.finRange n)) := by
  have hloop := run_loop_ready (fun i => [.start i, .created i])
    (fun i : Fin n => [i]) none (some .started) [] fun a i hlogger hbefore => by
      simp [run, step, setThread, hlogger, hbefore]
  rw [List.nil_append, List.flatMap_singleton'] at hloop
  rw [setUp, run_append]
  exact hloop

private theorem flatMap_nothing (l : List (Fin n)) :
    (l.flatMap fun _ => ([] : List (Fin n))) = [] :=
  List.flatMap_eq_nil_iff.mpr fun _ _ => rfl

theorem run_main (test : Test) (list : List (Fin n)) :
    (ready n (some .started) list).run (test.main n) =
      some (ready n (some .joined) list) := by
  cases test with
  | testStop =>
      have hloop := run_loop_ready (fun i => [.stop i, .join i]) (fun _ => [])
        (some .started) (some .joined) list
        fun a i hlogger hbefore => by simp [run, step, setThread, hbefore]
      rwa [flatMap_nothing, List.append_nil] at hloop
  | testCancel =>
      have hloop := run_loop_ready (fun i => [.cancel i, .join i]) (fun _ => [])
        (some .started) (some .joined) list
        fun a i hlogger hbefore => by simp [run, step, setThread, hbefore]
      rwa [flatMap_nothing, List.append_nil] at hloop

theorem run_tearDown (list : List (Fin n)) :
    (ready n (some .joined) list).run (tearDown n) = some (empty n) := by
  have hloop := run_loop_ready (fun i => [.delete i]) (fun _ => [])
    (some .joined) none list fun a i hlogger hbefore => by
      simp [run, step, setThread, hlogger, hbefore]
  rw [tearDown, run_append, List.map_eq_flatMap, hloop, Option.bind_some]
  simp [run, step, ready, empty]

theorem run_test (test : Test) : (empty n).run (test.code n) = some (empty n) := by
  rw [Test.code, run_append, run_append, run_setUp, Option.bind_some, run_main,
    Option.bind_some, run_tearDown]

theorem run_program (tests : List Test) :
    (empty n).run (program n tests) = some (empty n) := by
  induction tests with
  | nil => rfl
  | cons test tests ih =>
      rw [program, List.flatMap_cons, run_append, run_test, Option.bind_some]
      exact ih

end Outline

/-! ## The threads -/

def left : Thread.Pc → ℕ
  | .disableForInit => 7
  | .init => 6
  | .enableForMain => 5
  | .threadMain => 4
  | .disableForCleanup => 3
  | .cleanup => 2
  | .enableForReturn => 1
  | _ => 0

theorem ended_of_left {pc : Thread.Pc} (h : 0 < left pc) : pc.ended = false := by
  cases pc with
  | returned | cancelled => cases h
  | _ => rfl

structure Live (t : MyThread) : Prop where
  invariant : Thread.Invariant t.thread
  stopped : t.run = false
  straight : 0 < left t.thread.pc ∨ t.thread.pc = .returned
  masked : t.thread.pc = .cleanup → t.thread.cancelEnabled = false

namespace Live

variable {t : MyThread}

theorem not_actOnCancel (h : Live t) (hmain : t.thread.pc ≠ .threadMain) :
    Thread.exec t.thread .actOnCancel = .error .blocked := by
  have hinit : t.thread.pc = .init → t.thread.cancelEnabled = false := by
    intro hpc
    have own := h.invariant.ownership
    simp only [Thread.Ownership, hpc] at own
    exact own.2
  have hmasked : (t.thread.cancelEnabled && t.thread.pc.cancellationPoint) =
      false := by
    have hstraight := h.straight
    cases hpc : t.thread.pc with
    | init => rw [hinit hpc, Bool.false_and]
    | cleanup => rw [h.masked hpc, Bool.false_and]
    | threadMain => exact absurd hpc hmain
    | gcKicked | gcReclaimed =>
        simp [hpc, left] at hstraight
    | _ => exact Bool.and_false _
  rw [Thread.exec, Thread.provided, Bool.and_assoc, hmasked, Bool.and_false]
  rfl

def next (pc : Thread.Pc) : Thread.Action Empty :=
  if pc = .threadMain then .returnMain else .next

theorem of_exec (h : Live t) {a : Thread.Action Empty}
    {thread : Thread.State Empty} (hexec : Thread.exec t.thread a = .ok thread)
    (straight : 0 < left thread.pc ∨ thread.pc = .returned)
    (masked : thread.pc = .cleanup → thread.cancelEnabled = false) :
    Live { t with thread := thread } where
  invariant := Thread.invariant_inductive.step h.invariant hexec
  stopped := h.stopped
  straight := straight
  masked := masked

/-- Each statement succeeds and leads to the next one. -/
theorem advances (h : Live t) (hleft : 0 < left t.thread.pc) :
    ∃ thread, Thread.exec t.thread (next t.thread.pc) = .ok thread ∧
      Live { t with thread := thread } ∧ thread.object = t.thread.object ∧
      left thread.pc + 1 = left t.thread.pc := by
  have own := h.invariant.ownership
  unfold Thread.Ownership at own
  -- The statements that change nothing but the place and the cancel state.
  have hplain : ∀ (enabled : Bool) (pc : Thread.Pc),
      Thread.exec t.thread (next t.thread.pc) =
        .ok { t.thread with cancelEnabled := enabled, pc := pc } →
      left pc + 1 = left t.thread.pc → (0 < left pc ∨ pc = .returned) →
      (pc = .cleanup → enabled = false) →
      ∃ thread, Thread.exec t.thread (next t.thread.pc) = .ok thread ∧
        Live { t with thread := thread } ∧ thread.object = t.thread.object ∧
        left thread.pc + 1 = left t.thread.pc :=
    fun _ _ hexec hless straight masked =>
      ⟨_, hexec, h.of_exec hexec straight masked, rfl, hless⟩
  cases hpc : t.thread.pc with
  | notCreated | gcKicked | gcReclaimed | returned | cancelled =>
      rw [hpc] at hleft
      cases hleft
  | disableForInit =>
      rw [← hpc]
      refine hplain false .init ?_ ?_ (.inl ?_) (by simp)
      · simp [next, hpc, Thread.exec, Thread.advance]
      · rw [hpc]; rfl
      · exact Nat.succ_pos _
  | init =>
      rw [hpc] at own
      obtain ⟨⟨-, hpool, htinst, -⟩, -⟩ := own
      have hexec : Thread.exec t.thread (next t.thread.pc) =
          .ok { t.thread with
            tinst := true
            pool := some t.thread.memory.newPool.1
            ctxPool := some t.thread.memory.newPool.1
            memory := t.thread.memory.newPool.2
            pc := .enableForMain } := by
        simp only [next, hpc, reduceCtorEq, if_false, Thread.exec,
          Thread.advance, Thread.init, hpool, htinst]
        rfl
      rw [← hpc]
      exact ⟨_, hexec, h.of_exec hexec (.inl (Nat.succ_pos _)) (by simp),
        rfl, by rw [hpc]; rfl⟩
  | enableForMain =>
      rw [← hpc]
      refine hplain true .threadMain ?_ ?_ (.inl ?_) (by simp)
      · simp [next, hpc, Thread.exec, Thread.advance]
      · rw [hpc]; rfl
      · exact Nat.succ_pos _
  | threadMain =>
      rw [← hpc]
      refine hplain t.thread.cancelEnabled .disableForCleanup ?_ ?_ (.inl ?_) (by simp)
      · simp [next, hpc, Thread.exec, Thread.provided]
      · rw [hpc]; rfl
      · exact Nat.succ_pos _
  | disableForCleanup =>
      rw [← hpc]
      refine hplain false .cleanup ?_ ?_ (.inl ?_)
        fun _ => rfl
      · simp [next, hpc, Thread.exec, Thread.advance]
      · rw [hpc]; rfl
      · exact Nat.succ_pos _
  | cleanup =>
      rw [hpc] at own
      obtain ⟨hpool, htinst, slabs, hholds⟩ := own
      obtain ⟨memory, hcleanup, -⟩ := hholds.cleanupPool
      have hexec : Thread.exec t.thread (next t.thread.pc) =
          .ok { t.thread with
            tinst := false
            ctxPool := none
            pool := none
            memory := memory
            pc := .enableForReturn } := by
        simp only [next, hpc, reduceCtorEq, if_false, Thread.exec,
          Thread.advance, Thread.cleanup, hpool, htinst, hcleanup]
        rfl
      rw [← hpc]
      exact ⟨_, hexec, h.of_exec hexec (.inl (Nat.succ_pos _)) (by simp),
        rfl, by rw [hpc]; rfl⟩
  | enableForReturn =>
      rw [← hpc]
      refine hplain true .returned ?_ ?_ (.inr rfl) (by simp)
      · simp [next, hpc, Thread.exec, Thread.advance]
      · rw [hpc]; rfl

end Live

structure Done (thread : Thread.State Empty) : Prop where
  invariant : Thread.Invariant thread
  object : thread.object = .destructed
  returned : thread.pc = .returned

theorem Done.released {thread : Thread.State Empty} (h : Done thread) :
    thread.memory.allocated = 1 ∧ thread.memory.deleted 0 = 1 := by
  have own := h.invariant.ownership
  simp only [Thread.Ownership, h.returned] at own
  exact ⟨own.allocated, by rw [own.deleted, Function.update_self]⟩

/-! ## The whole program -/

def stage : Option Logger → LoggerStage
  | none => .absent
  | some logger => if logger.writer.isSome then .attached else .bare

theorem stage_eq_absent {logger : Option Logger} :
    stage logger = .absent ↔ logger = none := by
  cases logger with
  | none => simp [stage]
  | some logger =>
      rw [stage]
      split <;> simp

def State.outline (s : State n) : Outline n :=
  ⟨stage s.logger, s.cpuId.isSome,
    fun i => (s.threads i).map fun t => t.thread.object, s.list⟩

def Instr.isDelete : Instr n → Bool
  | .delete _ => true
  | _ => false

structure Sound (deletes : ℕ) (s : State n) : Prop where
  legal : s.outline.run s.main = some (.empty n)
  ready : ∀ i t, s.threads i = some t → stage s.logger = .attached
  live : ∀ i t, s.threads i = some t → Live t
  deleted : ∀ thread ∈ s.deleted, Done thread
  count : s.deleted.length + s.main.countP Instr.isDelete = deletes

def weight (t : Option MyThread) : ℕ := t.elim 0 fun t => left t.thread.pc

def remaining (s : State n) : ℕ := 8 * s.main.length + total weight s.threads

variable {build file}

theorem log_ok {s : State n} (h : stage s.logger = .attached) :
    log build s = .ok () := by
  unfold stage at h
  split at h
  case h_1 => cases h
  case h_2 logger hlogger =>
    split at h
    · rename_i hwriter
      obtain ⟨calls, hcalls⟩ := Option.isSome_iff_exists.mp hwriter
      rw [log, hlogger, Singleton.get_some, Code.ok_bind, hcalls]
      rfl
    · cases h

theorem setThread_outline (s : State n) (i : Fin n) (t : Option MyThread) :
    (s.setThread i t).outline =
      s.outline.setThread i (t.map fun t => t.thread.object) := by
  rw [State.outline, State.outline, Outline.setThread]
  congr 1
  exact funext (Function.apply_update
    (fun _ (t : Option MyThread) => t.map fun t => t.thread.object) s.threads i t)

theorem setThread_outline_same {s : State n} {i : Fin n} {t t' : MyThread}
    (hi : s.threads i = some t) (object : t'.thread.object = t.thread.object) :
    (s.setThread i (some t')).outline = s.outline := by
  have hsame : s.outline.threads i = some t'.thread.object := by
    simp [State.outline, hi, object]
  rw [setThread_outline, Option.map_some, ← hsame, Outline.setThread,
    Function.update_eq_self]

namespace Sound

variable {deletes : ℕ} {s : State n}

theorem setThread (h : Sound deletes s) {i : Fin n} {t t' : MyThread}
    (hi : s.threads i = some t) (live : Live t')
    (object : t'.thread.object = t.thread.object) :
    Sound deletes (s.setThread i (some t')) where
  legal := by
    rw [setThread_outline_same hi object]
    exact h.legal
  ready _ _ _ := h.ready i t hi
  live := by
    refine forall_update
      (fun _ (x : Option MyThread) => ∀ u, x = some u → Live u) ?_
      fun j _ => h.live j
    rintro u hu
    cases hu
    exact live
  deleted := h.deleted
  count := h.count

theorem actOnCancel_blocked (h : Sound deletes s) (i : Fin n) :
    actOnCancel s i = .error .blocked := by
  unfold actOnCancel
  cases hi : s.threads i with
  | none => rfl
  | some t =>
      have live := h.live _ _ hi
      dsimp only
      by_cases hmain : t.thread.pc = .threadMain
      · rw [if_pos ⟨hmain, live.stopped⟩]
      · rw [if_neg fun both => hmain both.1, onThread, hi, deref_some,
          Code.ok_bind, live.not_actOnCancel hmain]
        rfl

theorem worker_eq (h : Sound deletes s) {i : Fin n} {t : MyThread}
    (hi : s.threads i = some t) :
    worker build s i = onThread s i (Live.next t.thread.pc) := by
  have live := h.live _ _ hi
  unfold worker
  rw [hi]
  dsimp only
  by_cases hmain : t.thread.pc = .threadMain
  · rw [if_pos hmain, live.stopped, Live.next, if_pos hmain]
    rfl
  · rw [if_neg hmain, Live.next, if_neg hmain]
    split
    · rw [log_ok (h.ready _ _ hi), Code.ok_bind]
    · rfl

variable (build) in
theorem worker_step (h : Sound deletes s) {i : Fin n} {t : MyThread}
    (hi : s.threads i = some t) (hleft : 0 < left t.thread.pc) :
    ∃ s', worker build s i = .ok s' ∧ Sound deletes s' ∧
      remaining s' + 1 = remaining s := by
  obtain ⟨thread, hexec, live, object, hless⟩ := (h.live _ _ hi).advances hleft
  refine ⟨s.setThread i (some { t with thread := thread }), ?_,
    h.setThread hi live object, ?_⟩
  · rw [h.worker_eq hi, onThread, hi, deref_some, Code.ok_bind, hexec]
    rfl
  · have htotal := total_update weight s.threads i
      (some { t with thread := thread })
    rw [hi] at htotal
    change total weight _ + left t.thread.pc = _ + left thread.pc at htotal
    rw [remaining, remaining, State.setThread]
    dsimp only
    omega

theorem worker_blocked (h : Sound deletes s) (i : Fin n)
    (hended : ∀ t, s.threads i = some t → left t.thread.pc = 0) :
    worker build s i = .error .blocked := by
  cases hi : s.threads i with
  | none => rw [worker, hi]
  | some t =>
      have hpc : t.thread.pc = .returned := by
        have hzero := hended t hi
        exact (h.live _ _ hi).straight.resolve_left (by omega)
      rw [h.worker_eq hi, onThread, hi, deref_some, Code.ok_bind, hpc]
      simp [Live.next, Thread.exec, Thread.advance, hpc]

theorem next (h : Sound deletes s) {instr : Instr n} {rest : List (Instr n)}
    {s' : State n} (hmain : s.main = instr :: rest) (main : s'.main = rest)
    (outline : s.outline.step instr = some s'.outline)
    (ready : ∀ i t, s'.threads i = some t → stage s'.logger = .attached)
    (live : ∀ i t, s'.threads i = some t → Live t)
    (deleted : ∀ thread ∈ s'.deleted, Done thread)
    (count : s'.deleted.length =
      s.deleted.length + if instr.isDelete then 1 else 0)
    (weights : total weight s'.threads ≤ total weight s.threads + 7) :
    Sound deletes s' ∧ remaining s' < remaining s := by
  refine ⟨⟨?_, ready, live, deleted, ?_⟩, ?_⟩
  · have hlegal := h.legal
    rwa [hmain, Outline.run_cons, outline, Option.bind_some, ← main] at hlegal
  · have hcount := h.count
    rw [hmain, List.countP_cons] at hcount
    rw [main, count]
    omega
  · rw [remaining, remaining, main, hmain, List.length_cons]
    omega

theorem next_alone (h : Sound deletes s) {instr : Instr n}
    {rest : List (Instr n)} {s' : State n} (hmain : s.main = instr :: rest)
    (main : s'.main = rest) (threads : s'.threads = s.threads)
    (deleted : s'.deleted = s.deleted) (keeps : instr.isDelete = false)
    (outline : s.outline.step instr = some s'.outline)
    (ready : ∀ i t, s.threads i = some t → stage s'.logger = .attached) :
    Sound deletes s' ∧ remaining s' < remaining s := by
  refine h.next hmain main outline ?_ ?_ ?_ ?_ ?_
  · rwa [threads]
  · rw [threads]
    exact h.live
  · rw [deleted]
    exact h.deleted
  · rw [deleted, keeps]
    rfl
  · rw [threads]
    omega

theorem next_thread (h : Sound deletes s) {instr : Instr n}
    {rest : List (Instr n)} {i : Fin n} {t t' : MyThread} {s' : State n}
    (hmain : s.main = instr :: rest) (hi : s.threads i = some t)
    (hs' : s' = { s.setThread i (some t') with main := rest })
    (live : Live t') (place : t'.thread.pc = t.thread.pc)
    (keeps : instr.isDelete = false)
    (outline : s.outline.step instr = some (s.setThread i (some t')).outline) :
    Sound deletes s' ∧ remaining s' < remaining s := by
  subst hs'
  refine h.next hmain rfl outline (fun _ _ _ => h.ready i t hi) ?_ h.deleted
    ?_ ?_
  · refine forall_update
      (fun _ (x : Option MyThread) => ∀ u, x = some u → Live u) ?_
      fun j _ => h.live j
    rintro u hu
    cases hu
    exact live
  · rw [keeps]
    rfl
  · have htotal := total_update weight s.threads i (some t')
    rw [hi] at htotal
    change total weight _ + left t.thread.pc = _ + left t'.thread.pc at htotal
    rw [place] at htotal
    rw [State.setThread]
    dsimp only
    omega

theorem object_eq {i : Fin n} {object : Thread.Lifetime}
    (h : s.outline.threads i = some object) :
    ∃ t, s.threads i = some t ∧ t.thread.object = object := by
  obtain ⟨t, hi, hobject⟩ := Option.map_eq_some_iff.mp h
  exact ⟨t, hi, hobject⟩

inductive MainOutcome (deletes : ℕ) (s : State n) : Code (State n) → Prop
  | advances {s' : State n} (sound : Sound deletes s')
      (less : remaining s' < remaining s) : MainOutcome deletes s (.ok s')
  | waits (i : Fin n) (t : MyThread) (thread : s.threads i = some t)
      (busy : 0 < left t.thread.pc) : MainOutcome deletes s (.error .blocked)

theorem MainOutcome.of_next {instr : Instr n} {rest : List (Instr n)}
    (hmain : s.main = instr :: rest) (s' : State n)
    (hexec : execInstr build file s instr = .ok s')
    (h : Sound deletes { s' with main := rest } ∧
      remaining { s' with main := rest } < remaining s) :
    MainOutcome deletes s (exec build file s .main) := by
  rw [exec, hmain]
  dsimp only
  rw [hexec]
  exact .advances h.1 h.2

theorem main_outcome_fixture (h : Sound deletes s) {instr : Instr n}
    {rest : List (Instr n)} (hmain : s.main = instr :: rest) {a : Outline n}
    (hstep : s.outline.step instr = some a)
    (hfixture : instr ∈ [.initLogger, .attachWriter, .initCpuId, .checkEmpty,
      .clear, .destroyCpuId, .destroyLogger]) :
    MainOutcome deletes s (exec build file s .main) := by
  cases instr with
  | start | created | stop | cancel | join | delete => simp at hfixture
  | initLogger =>
      have habsent : stage s.logger = .absent := by
        by_contra hne
        simp [Outline.step, State.outline, hne] at hstep
      have hlogger := stage_eq_absent.mp habsent
      refine .of_next hmain ({ s with
          logger := some (Logger.construct file) }) ?_ ?_
      · simp [execInstr, hlogger, pure, Except.pure]
      · refine h.next_alone hmain rfl rfl rfl rfl ?_ fun i t hi => ?_
        · exact if_pos habsent
        · exact absurd ((h.ready i t hi).symm.trans habsent) nofun
  | attachWriter =>
      have hpresent : stage s.logger ≠ .absent := by
        intro habsent
        simp [Outline.step, State.outline, habsent] at hstep
      obtain ⟨logger, hlogger⟩ := Option.ne_none_iff_exists'.mp
        fun hnone => hpresent (stage_eq_absent.mpr hnone)
      refine .of_next hmain ({ s with
          logger := some logger.attachWriter }) ?_ ?_
      · simp [execInstr, hlogger, pure, Except.pure]
      · exact h.next_alone hmain rfl rfl rfl rfl (if_neg hpresent)
          fun _ _ _ => rfl
  | initCpuId =>
      have hcpuId : s.cpuId = none := by
        by_contra hne
        rw [← ne_eq, Option.ne_none_iff_isSome] at hne
        simp [Outline.step, State.outline, hne] at hstep
      refine .of_next hmain ({ s with
          cpuId := some RRCpuId.construct }) ?_ ?_
      · simp [execInstr, hcpuId, pure, Except.pure]
      · refine h.next_alone hmain rfl rfl rfl rfl ?_ h.ready
        simp [Outline.step, State.outline, hcpuId]
  | checkEmpty =>
      have hlist : s.list = [] := by
        by_contra hne
        simp [Outline.step, State.outline, hne] at hstep
      refine .of_next hmain (s) ?_ ?_
      · simp [execInstr, hlist, invariant, pure, Except.pure]
      · exact h.next_alone hmain rfl rfl rfl rfl (if_pos hlist) h.ready
  | clear =>
      refine .of_next hmain ({ s with list := [] }) rfl ?_
      exact h.next_alone hmain rfl rfl rfl rfl rfl h.ready
  | destroyCpuId =>
      obtain ⟨cpuId, hcpuId⟩ : ∃ cpuId, s.cpuId = some cpuId := by
        by_contra hne
        rw [← Option.ne_none_iff_exists', not_not] at hne
        simp [Outline.step, State.outline, hne] at hstep
      refine .of_next hmain ({ s with cpuId := none }) ?_ ?_
      · simp [execInstr, hcpuId, pure, Except.pure]
      · refine h.next_alone hmain rfl rfl rfl rfl ?_ h.ready
        simp [Outline.step, State.outline, hcpuId]
  | destroyLogger =>
      have hwhere : stage s.logger ≠ .absent ∧
          ∀ i, s.outline.threads i = none := by
        by_contra hne
        exact nomatch (if_neg hne).symm.trans hstep
      obtain ⟨logger, hlogger⟩ := Option.ne_none_iff_exists'.mp
        fun hnone => hwhere.1 (stage_eq_absent.mpr hnone)
      refine .of_next hmain ({ s with logger := none }) ?_ ?_
      · simp [execInstr, hlogger, pure, Except.pure]
      · refine h.next_alone hmain rfl rfl rfl rfl (if_pos hwhere) fun i t hi => ?_
        have hnone := Option.map_eq_none_iff.mp (hwhere.2 i)
        rw [hi] at hnone
        cases hnone

theorem main_outcome_thread (h : Sound deletes s) {instr : Instr n}
    {rest : List (Instr n)} (hmain : s.main = instr :: rest) {a : Outline n}
    (hstep : s.outline.step instr = some a) {i : Fin n}
    (hthread : instr ∈ [.stop i, .cancel i, .join i]) :
    MainOutcome deletes s (exec build file s .main) := by
  obtain ⟨t, hi⟩ : ∃ t, s.threads i = some t := by
    by_contra hne
    rw [← Option.ne_none_iff_exists', not_not] at hne
    simp only [List.mem_cons, List.not_mem_nil, or_false] at hthread
    rcases hthread with rfl | rfl | rfl <;>
      simp [Outline.step, State.outline, hne] at hstep
  have live := h.live i t hi
  have houtline : s.outline.threads i = some t.thread.object := by
    simp [State.outline, hi]
  simp only [List.mem_cons, List.not_mem_nil, or_false] at hthread
  rcases hthread with rfl | rfl | rfl
  · refine .of_next hmain (s.setThread i (some { t with run := false }))
      ?_ ?_
    · simp [execInstr, hi, pure, Except.pure]
    · refine h.next_thread hmain hi rfl ?_ rfl rfl ?_
      · exact ⟨live.invariant, rfl, live.straight, live.masked⟩
      · have hsame : (s.setThread i (some { t with run := false })).outline =
            s.outline := setThread_outline_same hi rfl
        rw [hsame]
        exact if_neg (by rw [houtline]; nofun)
  · have hobject : t.thread.object = .started := by
      by_contra hne
      simp [Outline.step, houtline, hne] at hstep
    have hexec : Thread.exec t.thread .cancel =
        .ok { t.thread with cancelRequested := true } := by
      simp [Thread.exec, Thread.provided, hobject]
    refine .of_next hmain (s.setThread i
      (some { t with thread := { t.thread with cancelRequested := true } })) ?_ ?_
    · rw [execInstr, onThread, hi, deref_some, Code.ok_bind, hexec]
      rfl
    · refine h.next_thread hmain hi rfl ?_ rfl rfl ?_
      · exact live.of_exec hexec live.straight live.masked
      · have hsame : (s.setThread i (some { t with
            thread := { t.thread with cancelRequested := true } })).outline =
            s.outline := setThread_outline_same hi rfl
        rw [hsame]
        exact if_pos (hobject ▸ houtline)
  · have hobject : t.thread.object = .started := by
      by_contra hne
      simp [Outline.step, houtline, hne] at hstep
    rcases live.straight with hbusy | hreturned
    · have hended := ended_of_left hbusy
      have hblocked : exec build file s .main = .error .blocked := by
        rw [exec, hmain]
        simp [execInstr, onThread, hi, Thread.exec, Thread.provided, hended]
      rw [hblocked]
      exact .waits i t hi hbusy
    · have hexec : Thread.exec t.thread .join =
          .ok { t.thread with object := .joined } := by
        simp [Thread.exec, Thread.provided, hobject, hreturned, Thread.Pc.ended]
      refine .of_next hmain (s.setThread i
        (some { t with thread := { t.thread with object := .joined } })) ?_ ?_
      · rw [execInstr, onThread, hi, deref_some, Code.ok_bind, hexec]
        rfl
      · refine h.next_thread hmain hi rfl ?_ rfl rfl ?_
        · exact live.of_exec hexec live.straight live.masked
        · rw [setThread_outline, Outline.step, if_pos (hobject ▸ houtline)]
          rfl

theorem main_outcome_start (h : Sound deletes s) {rest : List (Instr n)}
    {i : Fin n} (hmain : s.main = .start i :: rest) {a : Outline n}
    (hstep : s.outline.step (.start i) = some a) :
    MainOutcome deletes s (exec build file s .main) := by
  have hwhere : stage s.logger = .attached ∧ s.outline.threads i = none := by
    by_contra hne
    exact nomatch (if_neg hne).symm.trans hstep
  have hi : s.threads i = none := Option.map_eq_none_iff.mp hwhere.2
  let thread : Thread.State Empty := { Thread.initial Empty with
    object := .started, pc := .disableForInit }
  have hexec : Thread.exec (Thread.initial Empty) .start = .ok thread := rfl
  have live : Live ⟨thread, false⟩ :=
    ⟨Thread.invariant_inductive.step (Thread.invariant_inductive.init rfl) hexec,
      rfl, .inl (Nat.succ_pos _), nofun⟩
  refine .of_next hmain (s.setThread i (some ⟨thread, false⟩)) ?_ ?_
  · rw [execInstr, hexec]
    rfl
  · refine h.next hmain rfl ?_ (fun _ _ _ => hwhere.1) ?_ h.deleted rfl ?_
    · exact (if_pos hwhere).trans
        (congrArg some (setThread_outline s i (some ⟨thread, false⟩)).symm)
    · refine forall_update
        (fun _ (x : Option MyThread) => ∀ u, x = some u → Live u) ?_
        fun j _ => h.live j
      rintro u hu
      cases hu
      exact live
    · have htotal := total_update weight s.threads i (some ⟨thread, false⟩)
      rw [hi] at htotal
      change total weight _ + 0 = _ + 7 at htotal
      rw [State.setThread]
      dsimp only
      omega

theorem main_outcome_delete (h : Sound deletes s) {rest : List (Instr n)}
    {i : Fin n} (hmain : s.main = .delete i :: rest) {a : Outline n}
    (hstep : s.outline.step (.delete i) = some a) :
    MainOutcome deletes s (exec build file s .main) := by
  have hwhere : stage s.logger = .attached ∧
      s.outline.threads i = some .joined := by
    by_contra hne
    exact nomatch (if_neg hne).symm.trans hstep
  obtain ⟨t, hi, hobject⟩ := object_eq hwhere.2
  have live := h.live i t hi
  have hreturned : t.thread.pc = .returned := by
    have hended := live.invariant.ended hobject
    refine live.straight.resolve_left fun hbusy => ?_
    rw [ended_of_left hbusy] at hended
    cases hended
  obtain ⟨thread, hexec, hdone⟩ : ∃ thread,
      Thread.exec t.thread .destruct = .ok thread ∧ Done thread := by
    obtain ⟨ctxPool, memory, hdestroy, -⟩ :=
      Thread.destroy_ok live.invariant hobject
    have hexec : Thread.exec t.thread .destruct = .ok { t.thread with
        object := .destructed, ctxPool := ctxPool, memory := memory } := by
      simp [Thread.exec, Thread.provided, hobject, Thread.destruct, hdestroy,
        pure, Except.pure]
    exact ⟨_, hexec,
      Thread.invariant_inductive.step live.invariant hexec, rfl, hreturned⟩
  refine .of_next hmain ({ s.setThread i none with
    deleted := thread :: s.deleted }) ?_ ?_
  · rw [execInstr, log_ok hwhere.1, Code.ok_bind, hi, deref_some, Code.ok_bind,
      hexec]
    rfl
  · refine h.next hmain rfl ?_ (fun _ _ _ => hwhere.1) ?_ ?_ rfl ?_
    · exact (if_pos hwhere).trans
        (congrArg some (setThread_outline s i none).symm)
    · refine forall_update
        (fun _ (x : Option MyThread) => ∀ u, x = some u → Live u) ?_
        fun j _ => h.live j
      intro u hu
      cases hu
    · intro thread hthread
      rcases List.mem_cons.mp hthread with rfl | hthread
      · exact hdone
      · exact h.deleted thread hthread
    · have htotal := total_update weight s.threads i none
      have hnone : weight none = 0 := rfl
      rw [State.setThread]
      dsimp only
      omega

theorem main_outcome_created (h : Sound deletes s) {rest : List (Instr n)}
    {i : Fin n} (hmain : s.main = .created i :: rest) {a : Outline n}
    (hstep : s.outline.step (.created i) = some a) :
    MainOutcome deletes s (exec build file s .main) := by
  have hlogger : stage s.logger = .attached := by
    by_contra hne
    simp [Outline.step, State.outline, hne] at hstep
  refine .of_next hmain ({ s with list := s.list ++ [i] }) ?_ ?_
  · rw [execInstr, log_ok hlogger]
    rfl
  · exact h.next_alone hmain rfl rfl rfl rfl (if_pos hlogger) h.ready

variable (build file) in
theorem main_outcome (h : Sound deletes s) {instr : Instr n}
    {rest : List (Instr n)} (hmain : s.main = instr :: rest) :
    MainOutcome deletes s (exec build file s .main) := by
  obtain ⟨a, hstep, -⟩ : ∃ a, s.outline.step instr = some a ∧
      a.run rest = some (.empty n) := by
    have hlegal := h.legal
    rw [hmain, Outline.run_cons] at hlegal
    exact Option.bind_eq_some_iff.mp hlegal
  cases instr with
  | start i => exact h.main_outcome_start hmain hstep
  | delete i => exact h.main_outcome_delete hmain hstep
  | created i => exact h.main_outcome_created hmain hstep
  | stop i | cancel i | join i =>
      exact h.main_outcome_thread hmain hstep (i := i) (by simp)
  | _ => exact h.main_outcome_fixture hmain hstep (by simp)

variable (build file) in
theorem outcome (h : Sound deletes s) (a : Action n) :
    (∃ s', exec build file s a = .ok s' ∧ Sound deletes s' ∧
      remaining s' < remaining s) ∨ exec build file s a = .error .blocked := by
  cases a with
  | actOnCancel i => exact .inr (h.actOnCancel_blocked i)
  | worker i =>
      by_cases hended : ∀ t, s.threads i = some t → left t.thread.pc = 0
      · exact .inr (h.worker_blocked i hended)
      · simp only [not_forall] at hended
        obtain ⟨t, hi, hleft⟩ := hended
        obtain ⟨s', hworker, sound, hless⟩ :=
          h.worker_step build hi (Nat.pos_of_ne_zero hleft)
        exact .inl ⟨s', hworker, sound, by omega⟩
  | main =>
      cases hmain : s.main with
      | nil => exact .inr (by rw [exec, hmain])
      | cons instr rest =>
          have houtcome := h.main_outcome build file hmain
          cases hexec : exec build file s .main with
          | ok s' =>
              rw [hexec] at houtcome
              cases houtcome with
              | advances sound less => exact .inl ⟨s', rfl, sound, less⟩
          | error e =>
              rw [hexec] at houtcome
              cases houtcome
              exact .inr rfl

theorem step (h : Sound deletes s) {a : Action n} {s' : State n}
    (hstep : exec build file s a = .ok s') :
    Sound deletes s' ∧ remaining s' < remaining s := by
  rcases h.outcome build file a with
    ⟨s₁, hexec, sound, hless⟩ | hblocked
  · cases hstep.symm.trans hexec
    exact ⟨sound, hless⟩
  · cases hstep.symm.trans hblocked

/-- Until the main thread is through, it or one of the threads can go on. -/
theorem progress (h : Sound deletes s) (unfinished : s.main ≠ []) :
    ∃ a s', exec build file s a = .ok s' := by
  obtain ⟨instr, rest, hmain⟩ := List.exists_cons_of_ne_nil unfinished
  have houtcome := h.main_outcome build file hmain
  cases hexec : exec build file s .main with
  | ok s' => exact ⟨.main, s', hexec⟩
  | error e =>
      rw [hexec] at houtcome
      cases houtcome with
      | waits i t thread busy =>
          obtain ⟨s', hworker, -⟩ := h.worker_step build thread busy
          exact ⟨.worker i, s', hworker⟩

end Sound

theorem countP_program (n : ℕ) (tests : List Test) :
    (program n tests).countP Instr.isDelete = n * tests.length := by
  have hnone (body : Fin n → List (Instr n))
      (hbody : ∀ i, (body i).countP Instr.isDelete = 0) :
      ((List.finRange n).flatMap body).countP Instr.isDelete = 0 := by
    rw [List.countP_flatMap]
    simp [Function.comp_def, hbody]
  have htest (test : Test) : (test.code n).countP Instr.isDelete = n := by
    have hmain : (test.main n).countP Instr.isDelete = 0 := by
      cases test <;> exact hnone _ fun _ => rfl
    have hall : ((List.finRange n).map Instr.delete).countP Instr.isDelete = n := by
      rw [List.countP_map]
      simp [Function.comp_def, Instr.isDelete]
    rw [Test.code, setUp, tearDown, List.countP_append, List.countP_append,
      List.countP_append, List.countP_append, hmain, hall,
      hnone _ fun _ => rfl]
    change 0 + 0 + 0 + (n + 0) = n
    omega
  rw [program, List.countP_flatMap]
  simp [Function.comp_def, htest, Nat.mul_comm]

variable {tests : List Test} {tr : History (State n) (Action n)} {s : State n}

theorem sound_initial (n : ℕ) (tests : List Test) :
    Sound (n * tests.length) (initial n tests) where
  legal := Outline.run_program tests
  ready _ _ hi := absurd hi nofun
  live _ _ hi := absurd hi nofun
  deleted _ hthread := absurd hthread List.not_mem_nil
  count := (Nat.zero_add _).trans (countP_program n tests)

theorem sound_exec (run : (system build file n tests).Exec tr s) :
    Sound (n * tests.length) s := by
  induction run with
  | start init => exact init ▸ sound_initial n tests
  | next _ step ih => exact (ih.step step).1

theorem length_add_remaining_le (run : (system build file n tests).Exec tr s) :
    tr.length + remaining s ≤ 8 * (program n tests).length := by
  induction run with
  | start init =>
      obtain rfl := init
      have hzero : total weight (fun _ : Fin n => none) = 0 :=
        Finset.sum_eq_zero fun _ _ => rfl
      simp [remaining, hzero, initial]
  | next run step ih =>
      have hless := ((sound_exec run).step step).2
      rw [List.length_cons]
      omega

/--
The tests pass, whatever the number of cores and the schedule: no check fails,
no thread logs without a logger, and the program gets to its end.  There every
thread object has been deleted and its pools are released, and each thread has
returned: the requests of `testCancel` never take effect.
-/
theorem thread_tests_pass (run : (system build file n tests).Exec tr s) :
    (∀ a stop, exec build file s a = .error stop → stop = .blocked) ∧
    (s.main ≠ [] → ∃ a s', (system build file n tests).step s a s') ∧
    tr.length ≤ 8 * (program n tests).length ∧
    (s.main = [] →
      (s.logger = none ∧ s.cpuId = none ∧ (∀ i, s.threads i = none)) ∧
      s.deleted.length = n * tests.length ∧
      ∀ thread ∈ s.deleted, thread.object = .destructed ∧
        thread.pc = .returned ∧ thread.memory.allocated = 1 ∧
        thread.memory.deleted 0 = 1) := by
  have h := sound_exec run
  have hlength := length_add_remaining_le run
  refine ⟨fun a stop hstop => ?_, h.progress, by omega, fun hmain => ?_⟩
  · rcases h.outcome build file a with
      ⟨s', hexec, -⟩ | hblocked
    · cases hstop.symm.trans hexec
    · cases hstop.symm.trans hblocked
      rfl
  · have hlegal := h.legal
    rw [hmain] at hlegal
    have houtline : s.outline = .empty n := Option.some.inj hlegal
    have hcount := h.count
    rw [hmain] at hcount
    refine ⟨⟨?_, ?_, fun i => ?_⟩, hcount, fun thread hthread => ?_⟩
    · exact stage_eq_absent.mp (congrArg Outline.logger houtline)
    · have hcpuId := congrArg Outline.cpuId houtline
      simpa [State.outline, Outline.empty] using hcpuId
    · exact Option.map_eq_none_iff.mp
        (congrFun (congrArg Outline.threads houtline) i)
    · have done := h.deleted thread hthread
      exact ⟨done.object, done.returned, done.released⟩

theorem both_tests_pass :
    ∃ tr s, (system ⟨true, false⟩ none 2 [.testStop, .testCancel]).Exec tr s ∧
      s.main = [] ∧ s.logger = none ∧ s.deleted.length = 4 ∧
      ∀ thread ∈ s.deleted, thread.pc = .returned := by
  obtain ⟨tr, s, run, htest⟩ : ∃ tr s,
      (system ⟨true, false⟩ none 2 [.testStop, .testCancel]).Exec tr s ∧
        decide (s.main = []) = true :=
    Exec.ofRecord (exec ⟨true, false⟩ none) (initial 2 [.testStop, .testCancel])
      ((List.replicate 2 (List.replicate 6 Action.main ++
        [.worker 0, .worker 0, .main, .main, .main] ++
        List.replicate 7 (.worker 1) ++ List.replicate 5 (.worker 0) ++
        List.replicate 8 .main)).flatten)
      (fun r => decide (r.2.main = [])) rfl (by decide)
  have hmain := of_decide_eq_true htest
  obtain ⟨-, -, -, hend⟩ := thread_tests_pass run
  obtain ⟨⟨hlogger, -, -⟩, hlength, hdeleted⟩ := hend hmain
  exact ⟨tr, s, run, hmain, hlogger, hlength,
    fun thread hthread => (hdeleted thread hthread).2.1⟩

end Iocore.ThreadTest
