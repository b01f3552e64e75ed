import Iocore.Foundation.LockOrder
import Iocore.Foundation.System
import Iocore.Foundation.Threads
import Iocore.Lock.PThreadMutex

/-!
# Critical sections

`ENTER_CRITICAL_SECTION` opens a block whose first statement constructs an
`AutoLock`, and `LEAVE_CRITICAL_SECTION` closes it, which destructs the guard.
Threads run programs of such blocks, which may be nested, may use an
`AutoUnlock` on a mutex that was locked before, and may call `Unlock` of a
guard early.  A variable goes with each mutex, and an update reads it and
writes it back.
-/

namespace Iocore.CriticalSection

open Foundation Foundation.System Pthread

/-! ## Programs -/

/-- The guards of the blocks around a statement are numbered inside out. -/
inductive Program (M V : Type) where
  | done
  | autoLock (mutex : M) (body rest : Program M V)
  | autoUnlock (mutex : M) (body rest : Program M V)
  | unlock (guard : ℕ) (rest : Program M V)
  | update (mutex : M) (f : V → V) (rest : Program M V)

inductive Instr (M V : Type) where
  | lock (mutex : M)
  | autoLock (mutex : M)
  | autoUnlock (mutex : M)
  | unlock (guard : ℕ)
  | destruct
  | read (mutex : M)
  | write (mutex : M) (f : V → V)

variable {M V : Type}

def Program.code : Program M V → List (Instr M V)
  | .done => []
  | .autoLock mutex body rest =>
      .autoLock mutex :: (body.code ++ .destruct :: rest.code)
  | .autoUnlock mutex body rest =>
      .lock mutex :: .autoUnlock mutex :: (body.code ++ .destruct :: rest.code)
  | .unlock guard rest => .unlock guard :: rest.code
  | .update mutex f rest => .read mutex :: .write mutex f :: rest.code

/-! ## Running them -/

/-- The guards are listed innermost first, each with its `mutex_`. -/
structure Thread (M V : Type) where
  code : List (Instr M V)
  guards : List (Option M)
  local_ : Option V

structure State (Tid M V : Type) where
  mutexes : M → Mutex Tid
  vars : M → V
  threads : Tid → Thread M V

variable {Tid : Type} [DecidableEq Tid] [DecidableEq M]

namespace State

def goto (s : State Tid M V) (i : Tid) (t : Thread M V) : State Tid M V :=
  { s with threads := Function.update s.threads i t }

def setMutex (s : State Tid M V) (m : M) (mutex : Mutex Tid) :
    State Tid M V :=
  { s with mutexes := Function.update s.mutexes m mutex }

end State

variable (build : Build)

def release (s : State Tid M V) (i : Tid) (m : M) : Code (State Tid M V) := do
  let mutex ← PThreadMutex.unlock build (s.mutexes m) i
  return s.setMutex m mutex

def acquire (s : State Tid M V) (i : Tid) (m : M) : Code (State Tid M V) := do
  let mutex ← PThreadMutex.lock build (s.mutexes m) i
  return s.setMutex m mutex

def execInstr (s : State Tid M V) (i : Tid) (t : Thread M V) :
    Instr M V → Code (State Tid M V)
  | .lock m => do
      let s ← acquire build s i m
      return s.goto i t
  | .autoLock m => do
      let s ← acquire build s i m
      return s.goto i { t with guards := some m :: t.guards }
  | .autoUnlock m => .ok (s.goto i { t with guards := some m :: t.guards })
  | .unlock guard => do
      let ptr := t.guards[guard]?.join
      build.assert ptr.isSome
      let m ← deref ptr
      let s ← release build s i m
      return s.goto i { t with guards := t.guards.set guard none }
  | .destruct =>
      match t.guards with
      | [] => .error .blocked
      | none :: guards => .ok (s.goto i { t with guards := guards })
      | some m :: guards => do
          let s ← release build s i m
          return s.goto i { t with guards := guards }
  | .read m => .ok (s.goto i { t with local_ := some (s.vars m) })
  | .write m f => do
      let v ← deref t.local_
      return { s with vars := Function.update s.vars m (f v) }.goto i t

def exec (s : State Tid M V) (i : Tid) : Code (State Tid M V) :=
  let t := s.threads i
  match t.code with
  | [] => .error .blocked
  | instr :: code => execInstr build s i { t with code := code } instr

variable (isRecursive : M → Bool) (programs : Tid → Program M V) (vars : M → V)

def initial : State Tid M V where
  mutexes m := PThreadMutex.construct build (isRecursive m)
  vars := vars
  threads i := ⟨(programs i).code, [], none⟩

def system : System (State Tid M V) Tid :=
  .ofFunction (fun s => s = initial build isRecursive programs vars) (exec build)

/-! ## Where a program may lock -/

section Keeping

variable (admits : List (Option M) → M → Prop)

namespace Program

def after : Program M V → List (Option M) → List (Option M)
  | .done, guards => guards
  | .autoLock m body rest, guards | .autoUnlock m body rest, guards =>
      rest.after (body.after (some m :: guards)).tail
  | .unlock guard rest, guards => rest.after (guards.set guard none)
  | .update _ _ rest, guards => rest.after guards

/--
Each mutex is locked where it is admitted, a guard is unlocked at most once,
and a variable is updated only under its mutex.
-/
def Keeps : Program M V → List (Option M) → Prop
  | .done, _ => True
  | .autoLock m body rest, guards | .autoUnlock m body rest, guards =>
      admits guards m ∧ body.Keeps (some m :: guards) ∧
        rest.Keeps (body.after (some m :: guards)).tail
  | .unlock guard rest, guards =>
      guards[guard]?.join.isSome ∧ rest.Keeps (guards.set guard none)
  | .update m _ rest, guards => some m ∈ guards ∧ rest.Keeps guards

omit [DecidableEq M] in
@[simp] theorem length_after (program : Program M V) (guards : List (Option M)) :
    (program.after guards).length = guards.length := by
  induction program generalizing guards with
  | done => rfl
  | autoLock m body rest hbody hrest => simp [after, hbody, hrest]
  | autoUnlock m body rest hbody hrest => simp [after, hbody, hrest]
  | unlock guard rest hrest => simp [after, hrest]
  | update m f rest hrest => simp [after, hrest]

end Program

/-- What a thread is in the middle of. -/
inductive Phase (M : Type) where
  | between
  | locked (mutex : M)
  | hasRead (mutex : M)

def phase : List (Instr M V) → Phase M
  | .autoUnlock m :: _ => .locked m
  | .write m _ :: _ => .hasRead m
  | _ => .between

def wants : List (Instr M V) → Option M
  | .lock m :: _ | .autoLock m :: _ => some m
  | _ => none

def Legal : List (Instr M V) → Phase M → List (Option M) → Prop
  | [], phase, guards => phase = .between ∧ guards = []
  | .lock m :: code, phase, guards =>
      phase = .between ∧ admits guards m ∧ Legal code (.locked m) guards
  | .autoLock m :: code, phase, guards =>
      phase = .between ∧ admits guards m ∧
        Legal code .between (some m :: guards)
  | .autoUnlock m :: code, phase, guards =>
      phase = .locked m ∧ Legal code .between (some m :: guards)
  | .unlock guard :: code, phase, guards =>
      phase = .between ∧ guards[guard]?.join.isSome ∧
        Legal code .between (guards.set guard none)
  | .destruct :: code, phase, guards =>
      phase = .between ∧ guards ≠ [] ∧ Legal code .between guards.tail
  | .read m :: code, phase, guards =>
      phase = .between ∧ some m ∈ guards ∧ Legal code (.hasRead m) guards
  | .write m _ :: code, phase, guards =>
      phase = .hasRead m ∧ some m ∈ guards ∧ Legal code .between guards

variable {admits}

omit [DecidableEq M] in
theorem Legal.phase_eq {code : List (Instr M V)} {p : Phase M}
    {guards : List (Option M)} (h : Legal admits code p guards) :
    phase code = p := by
  cases code with
  | nil => exact h.1.symm
  | cons instr code => cases instr <;> exact h.1.symm

omit [DecidableEq M] in
theorem Legal.admitted {code : List (Instr M V)} {m : M}
    {guards : List (Option M)} (h : Legal admits code (phase code) guards)
    (wanted : wants code = some m) :
    phase code = .between ∧ admits guards m := by
  cases code with
  | nil => cases wanted
  | cons instr code =>
      cases instr <;> cases wanted <;> exact ⟨rfl, h.2.1⟩

omit [DecidableEq M] in
theorem Legal.guarded {code : List (Instr M V)} {m : M}
    {guards : List (Option M)} (h : Legal admits code (phase code) guards)
    (hread : phase code = .hasRead m) : some m ∈ guards := by
  cases code with
  | nil => cases hread
  | cons instr code =>
      cases instr <;> cases hread
      exact h.2.1

omit [DecidableEq M] in
theorem Program.Keeps.mono {admits' : List (Option M) → M → Prop}
    (weaker : ∀ {guards m}, admits guards m → admits' guards m)
    {program : Program M V} {guards : List (Option M)}
    (h : program.Keeps admits guards) : program.Keeps admits' guards := by
  induction program generalizing guards with
  | done => trivial
  | autoLock m body rest hbody hrest =>
      exact ⟨weaker h.1, hbody h.2.1, hrest h.2.2⟩
  | autoUnlock m body rest hbody hrest =>
      exact ⟨weaker h.1, hbody h.2.1, hrest h.2.2⟩
  | unlock guard rest hrest => exact ⟨h.1, hrest h.2⟩
  | update m f rest hrest => exact ⟨h.1, hrest h.2⟩

omit [DecidableEq M] in
theorem legal_append (program : Program M V) (code : List (Instr M V))
    (guards : List (Option M)) :
    Legal admits (program.code ++ code) .between guards ↔
      program.Keeps admits guards ∧
        Legal admits code .between (program.after guards) := by
  have hopen (body : Program M V) (m : M) (guards : List (Option M)) :
      body.after (some m :: guards) ≠ [] := by
    rw [← List.length_pos_iff, Program.length_after]
    exact Nat.succ_pos _
  induction program generalizing code guards with
  | done => simp [Program.code, Program.Keeps, Program.after]
  | autoLock m body rest hbody hrest =>
      simp [Program.code, Program.Keeps, Program.after, Legal, hbody, hrest,
        hopen, and_assoc]
  | autoUnlock m body rest hbody hrest =>
      simp [Program.code, Program.Keeps, Program.after, Legal, hbody, hrest,
        hopen, and_assoc]
  | unlock guard rest hrest =>
      simp [Program.code, Program.Keeps, Program.after, Legal, hrest,
        and_assoc]
  | update m f rest hrest =>
      simp [Program.code, Program.Keeps, Program.after, Legal, hrest,
        and_assoc]

end Keeping

/-! ## Mutexes -/

def heldBy (hold : Hold Tid) (i : Tid) : ℕ :=
  if hold.owner = some i then hold.count else 0

omit [DecidableEq M] in
theorem heldBy_unique {hold : Hold Tid} {i j : Tid} (hi : 0 < heldBy hold i)
    (hj : 0 < heldBy hold j) : i = j := by
  unfold heldBy at hi hj
  split at hi
  · rename_i hown
    split at hj
    · rename_i hown'
      exact Option.some.inj (hown.symm.trans hown')
    · cases hj
  · cases hi

theorem lock_eq (mutex : Mutex Tid) (i : Tid)
    (relock : 0 < heldBy mutex.hold i → mutex.kind = .recursive) :
    (∃ mutex', PThreadMutex.lock build mutex i = .ok mutex' ∧
      mutex'.kind = mutex.kind ∧
      heldBy mutex'.hold i = heldBy mutex.hold i + 1 ∧
      ∀ j, j ≠ i → heldBy mutex'.hold j = heldBy mutex.hold j) ∨
    PThreadMutex.lock build mutex i = .error .blocked ∧
      ∃ j, i ≠ j ∧ 0 < heldBy mutex.hold j := by
  obtain ⟨kind, hold⟩ := mutex
  cases hold with
  | free =>
      refine .inl ⟨⟨kind, .held i 0⟩, ?_, rfl, ?_, fun j hj => ?_⟩
      · simp [PThreadMutex.lock, mutexLock, pure, Except.pure]
      · simp [heldBy, Hold.owner, Hold.count]
      · simp [heldBy, Hold.owner, Ne.symm hj]
  | held owner relocks =>
      by_cases howner : owner = i
      · subst howner
        obtain rfl : kind = .recursive :=
          relock (by simp [heldBy, Hold.owner, Hold.count])
        refine .inl ⟨⟨.recursive, .held owner (relocks + 1)⟩, ?_, rfl, ?_,
          fun j hj => ?_⟩
        · simp [PThreadMutex.lock, mutexLock, pure, Except.pure]
        · simp [heldBy, Hold.owner, Hold.count]
        · simp [heldBy, Hold.owner, Ne.symm hj]
      · refine .inr ⟨?_, owner, Ne.symm howner, ?_⟩
        · simp [PThreadMutex.lock, mutexLock, howner]
        · simp [heldBy, Hold.owner, Hold.count]

theorem unlock_eq (mutex : Mutex Tid) (i : Tid) (held : 0 < heldBy mutex.hold i) :
    ∃ mutex', PThreadMutex.unlock build mutex i = .ok mutex' ∧
      mutex'.kind = mutex.kind ∧
      heldBy mutex'.hold i + 1 = heldBy mutex.hold i ∧
      ∀ j, j ≠ i → heldBy mutex'.hold j = heldBy mutex.hold j := by
  obtain ⟨kind, hold⟩ := mutex
  cases hold with
  | free => simp [heldBy, Hold.owner] at held
  | held owner relocks =>
      obtain rfl : owner = i := by
        by_contra hne
        simp [heldBy, Hold.owner, hne] at held
      cases relocks with
      | zero =>
          refine ⟨⟨kind, .free⟩, ?_, rfl, ?_, fun j hj => ?_⟩
          · simp [PThreadMutex.unlock, mutexUnlock, pure, Except.pure]
          · simp [heldBy, Hold.owner, Hold.count]
          · simp [heldBy, Hold.owner, Ne.symm hj]
      | succ relocks =>
          refine ⟨⟨kind, .held owner relocks⟩, ?_, rfl, ?_, fun j hj => ?_⟩
          · simp [PThreadMutex.unlock, mutexUnlock, pure, Except.pure]
          · simp [heldBy, Hold.owner, Hold.count]
          · simp [heldBy, Hold.owner, Ne.symm hj]

/-! ## What the threads hold -/

def Phase.owns : Phase M → M → ℕ
  | .locked m, l => if m = l then 1 else 0
  | _, _ => 0

def Thread.holds (t : Thread M V) (m : M) : ℕ :=
  t.guards.count (some m) + (phase t.code).owns m

theorem Thread.holds_pos_of_mem {t : Thread M V} {m : M}
    (h : some m ∈ t.guards) : 0 < t.holds m :=
  Nat.add_pos_left (List.count_pos_iff.mpr h) _

theorem Thread.holds_between {t : Thread M V} (h : phase t.code = .between)
    (m : M) : t.holds m = t.guards.count (some m) := by
  rw [holds, h]
  rfl

theorem count_set {guards : List (Option M)} {guard : ℕ} {m : M}
    (h : guards[guard]?.join = some m) (l : M) :
    (guards.set guard none).count (some l) + (if m = l then 1 else 0) =
      guards.count (some l) := by
  obtain ⟨hlt, hget⟩ :=
    List.getElem?_eq_some_iff.mp (Option.join_eq_some_iff.mp h)
  have hpos : m = l → 0 < guards.count (some l) := by
    rintro rfl
    exact List.count_pos_iff.mpr (hget ▸ List.getElem_mem hlt)
  rw [List.count_set hlt, hget]
  by_cases hl : m = l
  · have := hpos hl
    simp [hl]
    omega
  · simp [hl]

def Relocks (m : M) : Prop :=
  PThreadMutex.kind build (isRecursive m) = .recursive

section Sound

variable (admits : List (Option M) → M → Prop)

structure Sound (s : State Tid M V) : Prop where
  kinds : ∀ m, (s.mutexes m).kind = PThreadMutex.kind build (isRecursive m)
  legal : ∀ i, Legal admits (s.threads i).code (phase (s.threads i).code)
    (s.threads i).guards
  held : ∀ m i, heldBy (s.mutexes m).hold i = (s.threads i).holds m
  read : ∀ i m, phase (s.threads i).code = .hasRead m →
    (s.threads i).local_ = some (s.vars m)

/-- What the next instruction of thread `i` does, if it can go on. -/
structure Advances (s : State Tid M V) (i : Tid) (s' : State Tid M V) :
    Prop where
  code : ∃ instr t, (s.threads i).code = instr :: t.code ∧
    s'.threads = Function.update s.threads i t ∧
    s'.vars = match instr with
      | .write m f => Function.update s.vars m (f (s.vars m))
      | _ => s.vars
  sound : Sound build isRecursive admits s'

inductive Outcome (s : State Tid M V) (i : Tid) : Code (State Tid M V) → Prop
  | finished (done : (s.threads i).code = []) : Outcome s i (.error .blocked)
  | waits (m : M) (j : Tid) (waiting : wants (s.threads i).code = some m)
      (other : i ≠ j) (held : 0 < (s.threads j).holds m) :
      Outcome s i (.error .blocked)
  | advances {s' : State Tid M V} (goes : Advances build isRecursive admits s i s') :
      Outcome s i (.ok s')

namespace Sound

variable {build isRecursive admits} {s : State Tid M V}

theorem exclusive (h : Sound build isRecursive admits s) {m : M} {i j : Tid}
    (hi : 0 < (s.threads i).holds m) (hj : 0 < (s.threads j).holds m) :
    i = j := by
  rw [← h.held m] at hi hj
  exact heldBy_unique hi hj

theorem advance (h : Sound build isRecursive admits s) {i : Tid} {t : Thread M V}
    {mutexes : M → Mutex Tid} {vars : M → V} {p : Phase M}
    (legal : Legal admits t.code p t.guards)
    (kinds : ∀ m, (mutexes m).kind = (s.mutexes m).kind)
    (mine : ∀ m, heldBy (mutexes m).hold i = t.guards.count (some m) + p.owns m)
    (others : ∀ m j, j ≠ i →
      heldBy (mutexes m).hold j = heldBy (s.mutexes m).hold j)
    (read : ∀ m, p = .hasRead m → t.local_ = some (vars m))
    (kept : ∀ j m, j ≠ i → phase (s.threads j).code = .hasRead m →
      vars m = s.vars m) :
    Sound build isRecursive admits
      ⟨mutexes, vars, Function.update s.threads i t⟩ where
  kinds m := (kinds m).trans (h.kinds m)
  legal := by
    refine forall_update (fun _ (t : Thread M V) => Legal _ t.code
      (phase t.code) t.guards) ?_ fun j _ => h.legal j
    rwa [legal.phase_eq]
  held m := by
    refine forall_update (fun j (t : Thread M V) =>
      heldBy (mutexes m).hold j = t.holds m) ?_ fun j hj => ?_
    · rw [mine, Thread.holds, legal.phase_eq]
    · rw [others m j hj, h.held]
  read := by
    refine forall_update (fun _ (t : Thread M V) => ∀ m,
      phase t.code = .hasRead m → t.local_ = some (vars m)) ?_ fun j hj m hm => ?_
    · rw [legal.phase_eq]
      exact read
    · rw [h.read j m hm, kept j m hj hm]

theorem move (h : Sound build isRecursive admits s) {i : Tid} {t : Thread M V}
    {p : Phase M} (legal : Legal admits t.code p t.guards)
    (same : ∀ m, t.guards.count (some m) + p.owns m = (s.threads i).holds m)
    (read : ∀ m, p = .hasRead m → t.local_ = some (s.vars m)) :
    Sound build isRecursive admits (s.goto i t) :=
  h.advance legal (fun _ => rfl) (fun m => (h.held m i).trans (same m).symm)
    (fun _ _ _ => rfl) read fun _ _ _ _ => rfl

theorem change (h : Sound build isRecursive admits s) {i : Tid} {t : Thread M V}
    {m : M} {mutex : Mutex Tid} {p : Phase M}
    (legal : Legal admits t.code p t.guards)
    (kind : mutex.kind = (s.mutexes m).kind)
    (mine : heldBy mutex.hold i = t.guards.count (some m) + p.owns m)
    (others : ∀ j, j ≠ i → heldBy mutex.hold j = heldBy (s.mutexes m).hold j)
    (same : ∀ l, l ≠ m →
      t.guards.count (some l) + p.owns l = (s.threads i).holds l)
    (read : ∀ l, p ≠ .hasRead l) :
    Sound build isRecursive admits ((s.setMutex m mutex).goto i t) := by
  refine h.advance legal ?_ ?_ ?_ (fun l hl => absurd hl (read l))
    fun _ _ _ _ => rfl
  · exact forall_update (fun l (mutex : Mutex Tid) =>
      mutex.kind = (s.mutexes l).kind) kind fun _ _ => rfl
  · exact forall_update (fun l (mutex : Mutex Tid) =>
      heldBy mutex.hold i = t.guards.count (some l) + p.owns l) mine
      fun l hl => (h.held l i).trans (same l hl).symm
  · exact forall_update (fun l (mutex : Mutex Tid) => ∀ j, j ≠ i →
      heldBy mutex.hold j = heldBy (s.mutexes l).hold j) others
      fun _ _ _ _ => rfl

theorem holds_pos (h : Sound build isRecursive admits s) {i : Tid} {m : M}
    (between : phase (s.threads i).code = .between) :
    0 < heldBy (s.mutexes m).hold i ↔ some m ∈ (s.threads i).guards := by
  rw [h.held, Thread.holds_between between, List.count_pos_iff]

theorem acquires (h : Sound build isRecursive admits s) {i : Tid} {m : M}
    {instr : Instr M V} {t : Thread M V} {p : Phase M}
    (code : (s.threads i).code = instr :: t.code)
    (wanted : wants (instr :: t.code) = some m)
    (between : phase (instr :: t.code) = .between)
    (relock : some m ∈ (s.threads i).guards → Relocks build isRecursive m)
    (legal : Legal admits t.code p t.guards)
    (more : ∀ l, t.guards.count (some l) + p.owns l =
      (s.threads i).guards.count (some l) + if m = l then 1 else 0)
    (read : ∀ l, p ≠ .hasRead l) :
    Outcome build isRecursive admits s i (do
      let s ← acquire build s i m
      return s.goto i t) := by
  rw [← code] at wanted between
  have hholds := Thread.holds_between between
  have recursive : 0 < heldBy (s.mutexes m).hold i →
      (s.mutexes m).kind = .recursive := by
    intro hheld
    exact (h.kinds m).trans (relock ((h.holds_pos between).mp hheld))
  rcases lock_eq build (s.mutexes m) i recursive with
    ⟨mutex, hlock, hkind, hmine, hothers⟩ | ⟨hlock, j, hj, hheld⟩
  · rw [acquire, hlock]
    refine .advances ⟨⟨instr, t, code, rfl, ?_⟩, h.change legal hkind ?_
      hothers (fun l hl => ?_) read⟩
    · cases instr <;> first | rfl | (rw [code] at wanted; cases wanted)
    · rw [hmine, h.held, hholds, more, if_pos rfl]
    · rw [more, hholds, if_neg (Ne.symm hl), Nat.add_zero]
  · rw [acquire, hlock]
    rw [h.held] at hheld
    exact .waits m j wanted hj hheld

theorem releases (h : Sound build isRecursive admits s) {i : Tid} {m : M}
    {instr : Instr M V} {t : Thread M V}
    (code : (s.threads i).code = instr :: t.code)
    (between : phase (instr :: t.code) = .between)
    (store : ∀ m f, instr ≠ .write m f)
    (legal : Legal admits t.code .between t.guards)
    (less : ∀ l, t.guards.count (some l) + (if m = l then 1 else 0) =
      (s.threads i).guards.count (some l)) :
    Outcome build isRecursive admits s i (do
      let s ← release build s i m
      return s.goto i t) := by
  rw [← code] at between
  have hholds := Thread.holds_between between
  have hless := less m
  rw [if_pos rfl] at hless
  have hheld := (h.held m i).trans (hholds m)
  obtain ⟨mutex, hunlock, hkind, hmine, hothers⟩ :=
    unlock_eq build (s.mutexes m) i (by omega)
  rw [release, hunlock]
  refine .advances ⟨⟨instr, t, code, rfl, ?_⟩, h.change legal hkind ?_
    hothers (fun l hl => ?_) nofun⟩
  · cases instr <;> first | rfl | exact absurd rfl (store _ _)
  · change _ = _ + 0
    omega
  · have hl' := less l
    rw [if_neg (Ne.symm hl), Nat.add_zero] at hl'
    rw [hholds, ← hl']
    rfl

section Steps

variable (relock : ∀ {guards m}, admits guards m → some m ∈ guards →
  Relocks build isRecursive m)

include relock

theorem outcome (h : Sound build isRecursive admits s) (i : Tid) :
    Outcome build isRecursive admits s i (exec build s i) := by
  have legal := h.legal i
  cases hcode : (s.threads i).code with
  | nil =>
      simp only [exec, hcode]
      exact .finished hcode
  | cons instr code =>
      simp only [exec, hcode]
      rw [hcode] at legal
      have hholds := Thread.holds_between (t := s.threads i)
      cases instr with
      | lock m =>
          obtain ⟨-, admits, legal⟩ := legal
          exact h.acquires hcode rfl rfl (relock admits) legal (fun l => rfl) nofun
      | autoLock m =>
          obtain ⟨-, admits, legal⟩ := legal
          refine h.acquires hcode rfl rfl (relock admits) legal (fun l => ?_) nofun
          rw [List.count_cons]
          simp [Phase.owns]
      | autoUnlock m =>
          obtain ⟨-, legal⟩ := legal
          refine .advances ⟨⟨_, _, hcode, rfl, rfl⟩, h.move legal (fun l => ?_) nofun⟩
          rw [Thread.holds, hcode, List.count_cons]
          simp [Phase.owns, phase]
      | unlock guard =>
          obtain ⟨-, hguard, legal⟩ := legal
          obtain ⟨m, hm⟩ := Option.isSome_iff_exists.mp hguard
          simp only [execInstr, hm, Option.isSome_some, Build.assert_true,
            Code.ok_bind, deref_some]
          exact h.releases hcode rfl nofun legal (count_set hm)
      | destruct =>
          obtain ⟨-, hopen, legal⟩ := legal
          cases hguards : (s.threads i).guards with
          | nil => exact absurd hguards hopen
          | cons ptr guards =>
              rw [hguards] at legal
              cases ptr with
              | none =>
                  simp only [execInstr]
                  refine .advances ⟨⟨_, _, hcode, rfl, rfl⟩,
                    h.move legal (fun l => ?_) nofun⟩
                  rw [hholds (by rw [hcode]; rfl), hguards, List.count_cons]
                  simp [Phase.owns]
              | some m =>
                  simp only [execInstr]
                  refine h.releases hcode rfl nofun legal fun l => ?_
                  rw [hguards, List.count_cons]
                  simp
      | read m =>
          obtain ⟨-, hmem, legal⟩ := legal
          refine .advances ⟨⟨_, _, hcode, rfl, rfl⟩,
            h.move legal (fun l => ?_) fun l hl => ?_⟩
          · rw [hholds (by rw [hcode]; rfl)]
            rfl
          · cases hl
            rfl
      | write m f =>
          obtain ⟨-, hmem, legal⟩ := legal
          have hread := h.read i m (by rw [hcode]; rfl)
          simp only [execInstr, hread, deref_some, Code.ok_bind]
          refine .advances ⟨⟨_, _, hcode, rfl, rfl⟩,
            h.advance legal (fun _ => rfl) (fun l => ?_) (fun _ _ _ => rfl)
              nofun fun j l hj hl => ?_⟩
          · rw [h.held, Thread.holds, hcode]
            rfl
          · refine Function.update_of_ne (fun hlm => ?_) _ _
            subst hlm
            refine hj (h.exclusive (m := l) ?_ ?_)
            · exact Thread.holds_pos_of_mem ((h.legal j).guarded hl)
            · exact Thread.holds_pos_of_mem hmem

theorem step (h : Sound build isRecursive admits s) {i : Tid}
    {s' : State Tid M V} (hstep : exec build s i = .ok s') :
    Advances build isRecursive admits s i s' := by
  have houtcome := h.outcome relock i
  rw [hstep] at houtcome
  cases houtcome with
  | advances goes => exact goes

end Steps

theorem finished_holds (h : Sound build isRecursive admits s) {i : Tid}
    (done : (s.threads i).code = []) (m : M) : (s.threads i).holds m = 0 := by
  have legal := h.legal i
  rw [done] at legal
  rw [Thread.holds_between (by rw [done]; rfl), legal.2]
  rfl

theorem free (h : Sound build isRecursive admits s)
    (done : ∀ i, (s.threads i).code = []) (m : M) :
    (s.mutexes m).hold = .free := by
  cases hhold : (s.mutexes m).hold with
  | free => rfl
  | held owner relocks =>
      have hheld := h.held m owner
      rw [h.finished_holds (done owner), hhold] at hheld
      simp [heldBy, Hold.owner, Hold.count] at hheld

end Sound

end Sound

/-! ## Whole runs -/

def Relockable (relocks : M → Prop) (guards : List (Option M)) (m : M) : Prop :=
  some m ∈ guards → relocks m

/-- What a program has to keep to for its sections to exclude each other. -/
def Guarded : Prop :=
  ∀ i, (programs i).Keeps (Relockable (Relocks build isRecursive)) []

variable {build isRecursive programs vars}

theorem sound_exec {admits : List (Option M) → M → Prop}
    (relock : ∀ {guards m}, admits guards m → some m ∈ guards →
      Relocks build isRecursive m)
    (keeps : ∀ i, (programs i).Keeps admits [])
    {tr : History (State Tid M V) Tid} {s : State Tid M V}
    (run : (system build isRecursive programs vars).Exec tr s) :
    Sound build isRecursive admits s := by
  induction run with
  | start init =>
      obtain rfl := init
      have legal (i : Tid) : Legal admits (programs i).code .between [] := by
        have hlegal := (legal_append (programs i) [] []).mpr
          ⟨keeps i, rfl, List.eq_nil_of_length_eq_zero (by simp)⟩
        rwa [List.append_nil] at hlegal
      refine ⟨fun m => rfl, fun i => ?_, fun m i => ?_, fun i m hm => ?_⟩
      · change Legal _ (programs i).code (phase (programs i).code) []
        rw [(legal i).phase_eq]
        exact legal i
      · rw [Thread.holds_between (legal i).phase_eq]
        rfl
      · cases (legal i).phase_eq.symm.trans hm
  | next _ step ih => exact (ih.step relock step).sound

theorem Guarded.sound (guarded : Guarded build isRecursive programs)
    {tr : History (State Tid M V) Tid} {s : State Tid M V}
    (run : (system build isRecursive programs vars).Exec tr s) :
    Sound build isRecursive (Relockable (Relocks build isRecursive)) s :=
  sound_exec (fun relock => relock) guarded run

theorem Guarded.advances (guarded : Guarded build isRecursive programs)
    {tr : History (State Tid M V) Tid} {s s' : State Tid M V} {i : Tid}
    (run : (system build isRecursive programs vars).Exec tr s)
    (step : (system build isRecursive programs vars).step s i s') :
    Advances build isRecursive (Relockable (Relocks build isRecursive)) s i s' :=
  (guarded.sound run).step (fun relock => relock) step

def remaining [Fintype Tid] (s : State Tid M V) : ℕ :=
  total (fun t : Thread M V => t.code.length) s.threads

theorem length_add_remaining [Fintype Tid]
    (guarded : Guarded build isRecursive programs)
    {tr : History (State Tid M V) Tid} {s : State Tid M V}
    (run : (system build isRecursive programs vars).Exec tr s) :
    tr.length + remaining s = ∑ i, (programs i).code.length := by
  induction run with
  | start init =>
      obtain rfl := init
      exact Nat.zero_add _
  | @next tr s s' i run step ih =>
      obtain ⟨instr, t, hcode, hthreads, -⟩ := (guarded.advances run step).code
      have htotal := total_update (fun t : Thread M V => t.code.length)
        s.threads i t
      have hcode := congrArg List.length hcode
      rw [← hthreads] at htotal
      change remaining s' + _ = remaining s + _ at htotal
      rw [List.length_cons] at hcode ⊢
      omega

/-! ## Programs that keep the order -/

section Order

variable [Preorder M]

def Admits (relocks : M → Prop) (guards : List (Option M)) (m : M) : Prop :=
  (∀ l, some l ∈ guards → l < m) ∨ relocks m ∧ some m ∈ guards

omit [DecidableEq M] in
theorem Admits.relockable {relocks : M → Prop} {guards : List (Option M)}
    {m : M} (h : Admits relocks guards m) : Relockable relocks guards m := by
  intro held
  rcases h with above | ⟨recursive, -⟩
  · exact absurd (above m held) (lt_irrefl m)
  · exact recursive

variable (build isRecursive programs) in
/-- What every thread's program has to keep to for all of them to get through. -/
def Disciplined : Prop :=
  ∀ i, (programs i).Keeps (Admits (Relocks build isRecursive)) []

omit [DecidableEq Tid] [DecidableEq M] in
theorem Disciplined.guarded (ordered : Disciplined build isRecursive programs) :
    Guarded build isRecursive programs :=
  fun i => (ordered i).mono Admits.relockable

namespace Sound

variable {s : State Tid M V}

def waiting (s : State Tid M V) : Waiting Tid M where
  holds i m := 0 < (s.threads i).holds m
  wants i := wants (s.threads i).code

theorem ordered
    (h : Sound build isRecursive (Admits (Relocks build isRecursive)) s) :
    (waiting s).Ordered := by
  rintro l m i j ⟨hwants, hne, hheld⟩ hmine
  obtain ⟨between, admits⟩ := (h.legal i).admitted hwants
  change 0 < (s.threads i).holds m at hmine
  rw [Thread.holds_between between, List.count_pos_iff] at hmine
  rcases admits with above | ⟨-, hown⟩
  · exact above m hmine
  · exact absurd (h.exclusive (Thread.holds_pos_of_mem hown) hheld) hne

theorem progress [Finite Tid]
    (h : Sound build isRecursive (Admits (Relocks build isRecursive)) s)
    (unfinished : ∃ i, (s.threads i).code ≠ []) :
    ∃ i s', exec build s i = .ok s' := by
  obtain ⟨i, hi⟩ := unfinished
  obtain ⟨j, chain, ready⟩ := Waiting.Ordered.exists_ready h.ordered i
  have houtcome := h.outcome Admits.relockable j
  cases hexec : exec build s j with
  | ok s' => exact ⟨j, s', hexec⟩
  | error e =>
      rw [hexec] at houtcome
      cases houtcome with
      | finished done =>
          rcases Waiting.holds_of_chain chain with rfl | ⟨m, hm⟩
          · exact absurd done hi
          · exact absurd (h.finished_holds done m) (Nat.pos_iff_ne_zero.mp hm)
      | waits m k waiting other held =>
          exact absurd ⟨k, m, waiting, other, held⟩ ready

end Sound

/--
Threads whose programs lock in order get through, under every schedule: no
assertion fails and no pointer is null, some thread can go on until all are
through, each instruction is executed once, and in the end every mutex is free.
-/
theorem critical_sections_complete [Fintype Tid]
    (ordered : Disciplined build isRecursive programs)
    {tr : History (State Tid M V) Tid} {s : State Tid M V}
    (run : (system build isRecursive programs vars).Exec tr s) :
    (∀ i, (exec build s i).Safe fun _ => True) ∧
    ((∃ i, (s.threads i).code ≠ []) →
      ∃ i s', (system build isRecursive programs vars).step s i s') ∧
    tr.length + remaining s = ∑ i, (programs i).code.length ∧
    ((∀ i, (s.threads i).code = []) → ∀ m, (s.mutexes m).hold = .free) := by
  have h := sound_exec Admits.relockable ordered run
  refine ⟨fun i => ?_, h.progress, length_add_remaining ordered.guarded run,
    h.free⟩
  have houtcome := h.outcome Admits.relockable i
  cases hexec : exec build s i with
  | ok s' => trivial
  | error e =>
      rw [hexec] at houtcome
      cases houtcome <;> rfl

end Order

def Program.handOver (first second : M) (f : V → V) : Program M V :=
  .autoLock first
    (.autoLock first (.update first f .done)
      (.autoUnlock second (.unlock 1 (.update second f .done)) .done))
    .done

omit [DecidableEq M] in
theorem Program.handOver_keeps [Preorder M] {relocks : M → Prop}
    {first second : M} (f : V → V) (order : first < second)
    (relock : relocks first) :
    (handOver first second f).Keeps (Admits relocks) [] := by
  simp [handOver, Keeps, after, Admits, order, relock]

theorem hand_overs_complete :
    ∃ tr s, (system ⟨true, false⟩ (fun _ => true)
        (fun _ : Fin 2 => .handOver (0 : Fin 2) 1 Nat.succ) fun _ => 0).Exec tr s ∧
      tr.length = 24 ∧ ∀ m, (s.mutexes m).hold = .free := by
  obtain ⟨tr, s, run, htest⟩ : ∃ tr s, (system ⟨true, false⟩ (fun _ => true)
      (fun _ : Fin 2 => .handOver (0 : Fin 2) 1 Nat.succ) fun _ => 0).Exec tr s ∧
      (tr.length == 24 &&
        ((s.threads 0).code.isEmpty && (s.threads 1).code.isEmpty)) = true :=
    Exec.ofRecord (exec ⟨true, false⟩)
      (initial ⟨true, false⟩ (fun _ => true)
        (fun _ : Fin 2 => .handOver (0 : Fin 2) 1 Nat.succ) fun _ => 0)
      (List.replicate 8 0 ++ List.replicate 5 1 ++ List.replicate 4 0 ++
        List.replicate 7 1)
      (fun r => r.1.length == 24 &&
        ((r.2.threads 0).code.isEmpty && (r.2.threads 1).code.isEmpty))
      rfl (by decide)
  simp only [Bool.and_eq_true, beq_iff_eq, List.isEmpty_iff] at htest
  have ordered : Disciplined ⟨true, false⟩ (fun _ => true)
      fun _ : Fin 2 => .handOver (0 : Fin 2) 1 Nat.succ :=
    fun _ => Program.handOver_keeps _ (by decide) rfl
  exact ⟨tr, s, run, htest.1, (critical_sections_complete ordered run).2.2.2
    (Fin.forall_fin_two.mpr htest.2)⟩

/-! ## Updates -/

def stores (m : M) (s : State Tid M V) (i : Tid) : Option (Tid × (V → V)) :=
  match (s.threads i).code with
  | .write l f :: _ => if l = m then some (i, f) else none
  | _ => none

def stored (m : M) (tr : History (State Tid M V) Tid) : List (Tid × (V → V)) :=
  observed (stores m) tr

def writes (m : M) (code : List (Instr M V)) : List (V → V) :=
  code.filterMap fun
    | .write l f => if l = m then some f else none
    | _ => none

def storedBy (i : Tid) (done : List (Tid × (V → V))) : List (V → V) :=
  done.filterMap fun p => if p.1 = i then some p.2 else none

theorem stored_vars (guarded : Guarded build isRecursive programs)
    {tr : History (State Tid M V) Tid} {s : State Tid M V}
    (run : (system build isRecursive programs vars).Exec tr s) (m : M) :
    s.vars m = (stored m tr).foldr (fun p v => p.2 v) (vars m) := by
  induction run with
  | start init =>
      obtain rfl := init
      rfl
  | @next tr s s' i run step ih =>
      obtain ⟨instr, t, hcode, -, hvars⟩ := (guarded.advances run step).code
      rw [stored, observed_cons, ← stored, List.foldr_append, ← ih, hvars,
        stores, hcode]
      cases instr with
      | write l f =>
          by_cases hl : l = m
          · subst hl
            simp
          · simp [hl, Function.update_of_ne (Ne.symm hl)]
      | _ => rfl

theorem stored_writes (guarded : Guarded build isRecursive programs)
    {tr : History (State Tid M V) Tid} {s : State Tid M V}
    (run : (system build isRecursive programs vars).Exec tr s) (m : M)
    (i : Tid) :
    (storedBy i (stored m tr)).reverse ++ writes m (s.threads i).code =
      writes m (programs i).code := by
  induction run with
  | start init =>
      obtain rfl := init
      rfl
  | @next tr s s' j run step ih =>
      obtain ⟨instr, t, hcode, hthreads, -⟩ := (guarded.advances run step).code
      rw [← ih, stored, observed_cons, ← stored, stores, hcode, hthreads]
      by_cases hj : j = i
      · subst hj
        rw [Function.update_self, hcode]
        cases instr with
        | write l f => by_cases hl : l = m <;> simp [hl, storedBy, writes]
        | _ => rfl
      · rw [Function.update_of_ne (Ne.symm hj)]
        cases instr with
        | write l f => by_cases hl : l = m <;> simp [hl, storedBy, hj]
        | _ => rfl

/--
Critical sections make updates atomic: at most one thread is in a section of a
mutex, its variable has what the updates that were made yield one after the
other, and those are each thread's own, in the order of its program.
-/
theorem critical_sections_serialize
    (guarded : Guarded build isRecursive programs)
    {tr : History (State Tid M V) Tid} {s : State Tid M V}
    (run : (system build isRecursive programs vars).Exec tr s) (m : M) :
    AtMostOne (fun t : Thread M V => some m ∈ t.guards) s.threads ∧
    s.vars m = (stored m tr).foldr (fun p v => p.2 v) (vars m) ∧
    ∀ i, (storedBy i (stored m tr)).reverse ++ writes m (s.threads i).code =
      writes m (programs i).code :=
  ⟨fun _ _ hi hj => (guarded.sound run).exclusive
    (Thread.holds_pos_of_mem hi) (Thread.holds_pos_of_mem hj),
    stored_vars guarded run m, stored_writes guarded run m⟩

theorem hand_overs_serialize :
    ∃ tr s, (system ⟨true, false⟩ (fun _ => true)
        (fun _ : Fin 2 => .handOver (0 : Fin 2) 1 Nat.succ) fun _ => 0).Exec tr s ∧
      some 1 ∈ (s.threads 0).guards ∧ some 0 ∈ (s.threads 1).guards ∧
      AtMostOne (fun t : Thread (Fin 2) ℕ => some 0 ∈ t.guards) s.threads ∧
      s.vars 0 = (stored 0 tr).foldr (fun p v => p.2 v) 0 ∧
      (stored 0 tr).map Prod.fst = [1, 0] := by
  obtain ⟨tr, s, run, htest⟩ : ∃ tr s, (system ⟨true, false⟩ (fun _ => true)
      (fun _ : Fin 2 => .handOver (0 : Fin 2) 1 Nat.succ) fun _ => 0).Exec tr s ∧
      decide (some 1 ∈ (s.threads 0).guards ∧ some 0 ∈ (s.threads 1).guards ∧
        (stored 0 tr).map Prod.fst = [1, 0]) = true :=
    Exec.ofRecord (exec ⟨true, false⟩)
      (initial ⟨true, false⟩ (fun _ => true)
        (fun _ : Fin 2 => .handOver (0 : Fin 2) 1 Nat.succ) fun _ => 0)
      (List.replicate 8 0 ++ List.replicate 4 1)
      (fun r => decide (some 1 ∈ (r.2.threads 0).guards ∧
        some 0 ∈ (r.2.threads 1).guards ∧
        (stored 0 r.1).map Prod.fst = [1, 0]))
      rfl (by decide)
  obtain ⟨hsecond, hfirst, hstored⟩ := of_decide_eq_true htest
  have ordered : Disciplined ⟨true, false⟩ (fun _ => true)
      fun _ : Fin 2 => .handOver (0 : Fin 2) 1 Nat.succ :=
    fun _ => Program.handOver_keeps _ (by decide) rfl
  have hserial := critical_sections_serialize ordered.guarded run 0
  exact ⟨tr, s, run, hsecond, hfirst, hserial.1, hserial.2.1, hstored⟩

end Iocore.CriticalSection
