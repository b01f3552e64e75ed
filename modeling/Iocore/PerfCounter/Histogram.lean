import Iocore.PerfCounter.Print
import Mathlib.Logic.Function.Iterate

/-!
# The histogram

`operator<<` prints a line for every bucket that is not zero.  The count is a
64-bit field and a bucket a 32-bit one, so a bucket that gets `2 ^ 32` values
starts again at zero while the count goes on: from then on the buckets no
longer add up to the count, and at a multiple of `2 ^ 32` the line of a bucket
with values is skipped.
-/

namespace Iocore.PerfCounter

open Foundation Foundation.System

def bucketLine (counter : PerfCounter) (i : Fin 32) : Option (Fin 32 × UInt32) :=
  if counter.bucket i = 0 then none else some (i, counter.bucket i)

def bucketLines (counter : PerfCounter) : List (Fin 32 × UInt32) :=
  if counter.count = 0 then []
  else (List.finRange 32).filterMap counter.bucketLine

/-- The histogram accounts for the values, and skips only empty buckets. -/
structure Complete (counter : PerfCounter) (vals : List UInt32) : Prop where
  sum : ∑ b, (counter.bucket b).toNat = counter.count.toNat
  skipped : ∀ b, b ∉ counter.bucketLines.map Prod.fst →
    ∀ val ∈ vals, ¬ Belongs b val

/-! ## A print that runs alone -/

private theorem iterate_trans {p q r : Printer} {f : Printer → Printer}
    (hpq : ∃ n, f^[n] p = q) (hqr : ∃ n, f^[n] q = r) : ∃ n, f^[n] p = r := by
  obtain ⟨m, rfl⟩ := hpq
  obtain ⟨n, rfl⟩ := hqr
  exact ⟨n + m, Function.iterate_add_apply f n m p⟩

theorem print_buckets (type : CounterType) (counter : PerfCounter) (left i : Nat)
    (hi : i + left = 32) (r : Report) :
    ∃ n, (print type counter)^[n] ⟨.testBucket i, r⟩ = ⟨.idle, { r with
      buckets := r.buckets ++
        ((List.finRange 32).drop i).filterMap counter.bucketLine }⟩ := by
  induction left generalizing i r with
  | zero =>
      obtain rfl : i = 32 := hi
      have hnil : (List.finRange 32).drop 32 = [] :=
        List.drop_eq_nil_of_le (by simp)
      exact ⟨1, by simp [print, hnil]⟩
  | succ left ih =>
      have hlt : i < 32 := by omega
      have hdrop : (List.finRange 32).drop i =
          ⟨i, hlt⟩ :: (List.finRange 32).drop (i + 1) := by
        rw [List.drop_eq_getElem_cons (by simpa using hlt)]
        simp
      rw [hdrop]
      by_cases hzero : counter.bucket ⟨i, hlt⟩ = 0
      · have hline : counter.bucketLine ⟨i, hlt⟩ = none := if_pos hzero
        rw [List.filterMap_cons_none hline]
        refine iterate_trans ⟨1, ?_⟩ (ih (i + 1) (by omega) r)
        simp [print, hlt, hzero]
      · have hline : counter.bucketLine ⟨i, hlt⟩ =
            some (⟨i, hlt⟩, counter.bucket ⟨i, hlt⟩) := if_neg hzero
        rw [List.filterMap_cons_some hline, List.append_cons]
        refine iterate_trans ⟨2, ?_⟩ (ih (i + 1) (by omega)
          { r with buckets := r.buckets ++
            [(⟨i, hlt⟩, counter.bucket ⟨i, hlt⟩)] })
        simp [print, hlt, hzero]

/-- A print that runs alone prints the lines of the buckets that are not zero. -/
theorem print_alone (type : CounterType) (counter : PerfCounter) :
    ∃ n r, (print type counter)^[n] ⟨.checkCount, .empty⟩ = ⟨.idle, r⟩ ∧
      r.buckets = counter.bucketLines := by
  by_cases hcount : counter.count = 0
  · exact ⟨1, .empty, by simp [print, hcount],
      by simp [bucketLines, hcount, Report.empty]⟩
  · have hfields : ∃ n r, (print type counter)^[n] ⟨.checkCount, .empty⟩ =
        ⟨.testBucket 0, r⟩ ∧ r.buckets = [] := by
      by_cases hbytes : type = .bytes
      · refine ⟨11, ?_⟩
        simp [print, hcount, afterAvg, hbytes, Report.empty]
      · refine ⟨9, ?_⟩
        simp [print, hcount, afterAvg, hbytes, Report.empty]
    obtain ⟨m, r, hloaded, hnone⟩ := hfields
    obtain ⟨n, hprinted⟩ := iterate_trans ⟨m, hloaded⟩
      (print_buckets type counter 32 0 rfl r)
    refine ⟨n, _, hprinted, ?_⟩
    rw [hnone, bucketLines, if_neg hcount]
    rfl

/-! ## The sum of the buckets -/

theorem mem_bucketLines {counter : PerfCounter} {b : Fin 32} :
    b ∈ counter.bucketLines.map Prod.fst ↔
      counter.count ≠ 0 ∧ counter.bucket b ≠ 0 := by
  unfold bucketLines
  by_cases hcount : counter.count = 0
  · simp [hcount]
  · rw [if_neg hcount, List.mem_map]
    refine (exists_congr fun line =>
      and_congr_left' List.mem_filterMap).trans ?_
    constructor
    · rintro ⟨line, ⟨i, -, hi⟩, rfl⟩
      unfold bucketLine at hi
      split_ifs at hi with hzero
      cases hi
      exact ⟨hcount, hzero⟩
    · rintro ⟨-, hb⟩
      exact ⟨(b, counter.bucket b), ⟨b, List.mem_finRange b, if_neg hb⟩, rfl⟩

theorem sum_belongs (vals : List UInt32) :
    ∑ b : Fin 32, vals.countP (fun val => Belongs b val) = vals.length := by
  rw [← sum_countP_eq_length bucketOf vals]
  refine Finset.sum_congr rfl fun b _ => List.countP_congr fun val _ => ?_
  simp [belongs_iff_eq]

variable {Tid : Type} [DecidableEq Tid] [Fintype Tid]

omit [DecidableEq Tid] in
theorem Accounted.complete_iff {vals : List UInt32} {s : State Tid}
    (h : Accounted vals s) (returned : ∀ i, s.pc i = .idle)
    (few : vals.length < 2 ^ 64) :
    Complete s.counter vals ↔
      ∀ b, (vals.countP fun val => Belongs b val) < 2 ^ 32 := by
  have hcount := h.count_eq returned
  rw [Nat.mod_eq_of_lt few, ← sum_belongs vals] at hcount
  have hbucket := h.bucket_eq returned
  have hsum : ∑ b, (s.counter.bucket b).toNat = s.counter.count.toNat ↔
      ∀ b, (vals.countP fun val => Belongs b val) < 2 ^ 32 := by
    simp only [hbucket, hcount]
    exact sum_mod_eq_iff (by decide) _
  refine ⟨fun hcomplete => hsum.mp hcomplete.sum, fun hfits =>
    ⟨hsum.mpr hfits, fun b hskipped val hval hbelongs => ?_⟩⟩
  have hpos : 0 < vals.countP fun val => Belongs b val :=
    List.countP_pos_iff.mpr ⟨val, hval, decide_eq_true hbelongs⟩
  refine hskipped (mem_bucketLines.mpr ⟨fun hzero => ?_, fun hzero => ?_⟩)
  · rw [hzero, sum_belongs] at hcount
    have hlength := List.length_pos_of_mem hval
    have : (0 : UInt64).toNat = 0 := rfl
    omega
  · have hb := hbucket b
    rw [hzero, Nat.mod_eq_of_lt (hfits b)] at hb
    have : (0 : UInt32).toNat = 0 := rfl
    omega

/--
Whatever the order of their steps, once all calls of `Update` that were begun
have returned, and there were fewer than `2 ^ 64` of them, the histogram is
complete precisely when no bucket got `2 ^ 32` values or more.
-/
theorem histogram_complete_iff {tr : History (State Tid) (Action Tid)}
    {s : State Tid} (run : (system Tid).Exec tr s)
    (returned : ∀ i, s.pc i = .idle) (few : (begun tr).length < 2 ^ 64) :
    Complete s.counter (begun tr) ↔
      ∀ b, ((begun tr).countP fun val => Belongs b val) < 2 ^ 32 :=
  (accounted_exec run).complete_iff returned few

/-! ## Calls one after the other -/

theorem exec_runAlone {tr : History (State Unit) (Action Unit)}
    {s : State Unit} (run : (system Unit).Exec tr s) {left : Nat}
    {counter : PerfCounter} (h : runAlone left s = .ok counter) :
    ∃ tr', (system Unit).Exec tr' ⟨counter, fun _ => .idle⟩ ∧
      begun tr' = begun tr := by
  induction left generalizing tr s with
  | zero => cases h
  | succ left ih =>
      by_cases hidle : s.pc () = .idle
      · rw [runAlone, hidle] at h
        cases h
        have hs : s = ⟨s.counter, fun _ => .idle⟩ := by
          rw [← hidle]
        exact ⟨tr, hs ▸ run, rfl⟩
      · have hstep : advance s () >>= runAlone left = .ok counter := by
          rw [runAlone] at h
          split at h
          · exact absurd ‹_› hidle
          · exact h
        obtain ⟨s', hadvance, hrest⟩ := Code.bind_eq_ok.mp hstep
        obtain ⟨tr', run', hbegun⟩ := ih
          (run.next (show (system Unit).step s (.next ()) s' from hadvance)) hrest
        exact ⟨tr', run', hbegun⟩

theorem exec_updates (vals : List UInt32) {counter : PerfCounter}
    {tr : History (State Unit) (Action Unit)}
    (run : (system Unit).Exec tr ⟨counter, fun _ => .idle⟩) :
    ∃ tr', (system Unit).Exec tr' ⟨vals.foldl updated counter, fun _ => .idle⟩ ∧
      begun tr' = vals.reverse ++ begun tr := by
  induction vals generalizing counter tr with
  | nil => exact ⟨tr, run, rfl⟩
  | cons val vals ih =>
      have hcall : (system Unit).step ⟨counter, fun _ => .idle⟩
          (.update () val) ⟨counter, fun _ => .addVal val⟩ := by
        have hpc : Function.update (fun _ : Unit => Pc.idle) () (.addVal val) =
            fun _ => .addVal val := funext fun _ => Function.update_self ..
        change Except.ok (State.mk counter
          (Function.update (fun _ => Pc.idle) () (.addVal val))) = _
        rw [hpc]
      obtain ⟨tr₁, run₁, hbegun₁⟩ :=
        exec_runAlone (run.next hcall) (update_eq counter val)
      obtain ⟨tr₂, run₂, hbegun₂⟩ := ih run₁
      refine ⟨tr₂, run₂, ?_⟩
      rw [hbegun₂, hbegun₁, List.reverse_cons, List.append_assoc]
      rfl

theorem histogram_not_complete :
    ¬ ∀ tr s, (system Unit).Exec tr s → (∀ i, s.pc i = .idle) →
      (begun tr).length < 2 ^ 64 → Complete s.counter (begun tr) := by
  intro complete
  obtain ⟨tr, run, hbegun⟩ := exec_updates (List.replicate (2 ^ 32) 0)
    (.start rfl : (system Unit).Exec [] (initial Unit))
  have hvals : begun tr = List.replicate (2 ^ 32) 0 := by
    rw [hbegun, List.reverse_replicate]
    exact List.append_nil _
  have hfew : (begun tr).length < 2 ^ 64 := by
    rw [hvals, List.length_replicate]
    decide
  have hfits := ((accounted_exec run).complete_iff (fun _ => rfl) hfew).mp
    (complete tr _ run (fun _ => rfl) hfew) 0
  have hbelongs : Belongs 0 0 := by decide
  rw [hvals, List.countP_replicate, if_pos (decide_eq_true hbelongs)] at hfits
  omega

theorem histogram_complete_three :
    ∃ tr s, (system Unit).Exec tr s ∧ begun tr = [5, 4, 1] ∧
      s.pc () = .idle ∧ Complete s.counter (begun tr) := by
  obtain ⟨tr, run, hbegun⟩ := exec_updates [1, 4, 5]
    (.start rfl : (system Unit).Exec [] (initial Unit))
  have hvals : begun tr = [5, 4, 1] := hbegun
  exact ⟨tr, _, run, hvals, rfl, (histogram_complete_iff run (fun _ => rfl)
    (by rw [hvals]; decide)).mpr (by rw [hvals]; decide)⟩

end Iocore.PerfCounter
