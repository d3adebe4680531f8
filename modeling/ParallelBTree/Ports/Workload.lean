import Mathlib.Algebra.GroupWithZero.Nat
import ParallelBTree.Ports.Ipc
import ParallelBTree.Verified.Loop

/-!
# The requests of the five drivers

The argument of each driver is the number of requests (`tree4.exist`) to make.
`naive.cpp` and `cpp11.cpp` count up to it in one loop; the others divide it by
the number of their workers, and each worker has a loop of its own.

The definitions are these loops, with the arithmetic of `int` and `unsigned`:
the quotient of two `int`s is rounded towards zero, an `int` divided by an
`unsigned` is converted first, and `++i` is not defined at `INT_MAX`.  The
rounds of an `omp parallel for` are made once each, whoever makes them.  A loop
is run to its end: that `main` in `pthreads.cpp` may return before the checkers
do is the subject of `PthreadsShutdown`.

## Main results

* `total_ipc` — the children of `Ipc` make the requests of the loops.
* `same_workload_iff` — when all five make the requests they are asked for.
-/

namespace ParallelBTree.Ports.Workload

open ParallelBTree.Verified.Loop

/-- What a run of the drivers depends on: the argument, and what the machine and
the constants say about the workers. -/
structure Setup where
  /-- whatever `ss >> task_size` stores when it succeeds -/
  task_size : Int32
  /-- of `pthreads.cpp` -/
  hardware_concurrency : UInt32
  /-- the size of the team in `openmp.cpp` -/
  omp_get_num_threads : Int32
  /-- there is a thread besides the master -/
  team : 2 ≤ omp_get_num_threads
  /-- of `ipc.cpp` -/
  thread_num : Int32
  /-- there is a child -/
  children : 1 ≤ thread_num

namespace Setup

variable (d : Setup)

/-! ## The loops of each driver -/

/-- `naive.cpp` -/
def naive : List (Int32 → Bool) := [fun i => i != d.task_size]

/-- `cpp11.cpp`; each round starts a function that makes one request. -/
def cpp11 : List (Int32 → Bool) := [fun i => i != d.task_size]

/-- The number of checkers. -/
def concurentThreads : UInt32 :=
  let concurentThreads := d.hardware_concurrency - 1
  if concurentThreads < 1 then 1 else concurentThreads

/-- `int tasks = task_size / concurentThreads` -/
def tasks : Int32 := (d.task_size.toUInt32 / d.concurentThreads).toInt32

/-- `check`, in as many threads as there are. -/
def pthreads : List (Int32 → Bool) :=
  List.replicate d.concurentThreads.toNat fun i => i != d.tasks

/-- As a thread that is not the master computes it. -/
def nthreads : Int32 :=
  let nthreads := d.omp_get_num_threads - 1
  if nthreads < 1 then 1 else nthreads

/-- Every thread of the team makes the rounds of its loop, except the master. -/
def openmp : List (Int32 → Bool) :=
  List.replicate (d.omp_get_num_threads.toInt - 1).toNat
    fun i => decide (i < d.task_size / d.nthreads)

def task_num : Int32 := d.task_size / d.thread_num

/-- `ipc.cpp`, a loop in each child. -/
def ipc : List (Int32 → Bool) :=
  List.replicate d.thread_num.toInt.toNat fun j => j != d.task_num

/-- The loops end, after as many requests as `task_size` says; after none if it is
negative. -/
def MakesRequests (loops : List (Int32 → Bool)) : Prop :=
  int32.Total 0 loops d.task_size.toInt.toNat

/-- All five drivers do. -/
def SameWorkload : Prop :=
  ∀ loops ∈ [d.naive, d.cpp11, d.pthreads, d.openmp, d.ipc],
    d.MakesRequests loops

/-! ## The shares of the workers -/

variable {d : Setup} {q : Int32} {test : Int32 → Bool} {k W : Nat}

theorem ends_ne_iff :
    int32.Ends (fun i => i != q) 0 k ↔ (k : Int) = q.toInt := by
  have htest : ∀ i : Int32, (i != q) = true ↔ i.toInt ≠ q.toInt := by
    intro i
    rw [bne_iff_ne, Ne, Ne, Int32.toInt_inj]
  rw [int32.ends_ne_iff htest q.toInt_le]
  show (0 : Int) + k = q.toInt ↔ _
  rw [Int.zero_add]

theorem ends_lt_iff :
    int32.Ends (fun i => decide (i < q)) 0 k ↔ k = q.toInt.toNat := by
  have htest : ∀ i : Int32, decide (i < q) = true ↔ i.toInt < q.toInt := by
    intro i
    rw [decide_eq_true_iff, Int32.lt_iff_toInt_lt]
  rw [int32.ends_lt_iff htest q.toInt_le]
  show k = (q.toInt - (0 : Int)).toNat ↔ _
  rw [Int.sub_zero]

/-- One loop makes all the requests if it is not asked for fewer than none. -/
theorem makesRequests_one :
    d.MakesRequests [fun i => i != d.task_size] ↔ 0 ≤ d.task_size.toInt := by
  rw [MakesRequests, int32.total_singleton, ends_ne_iff]
  omega

/-- Where each of `W` workers makes the `W`-th part, rounded down, nothing may be
left over. -/
theorem makesRequests_share (hW : 1 ≤ W)
    (hends : ∀ k, int32.Ends test 0 k ↔ k = d.task_size.toInt.toNat / W) :
    d.MakesRequests (List.replicate W test) ↔
      W ∣ d.task_size.toInt.toNat := by
  rw [MakesRequests, int32.total_replicate hW, ← Nat.mul_div_eq_iff_dvd]
  constructor
  · rintro ⟨k, hk, htotal⟩
    rwa [(hends k).mp hk] at htotal
  · intro htotal
    exact ⟨_, (hends _).mpr rfl, htotal⟩

/-! ### Division -/

theorem toInt_div (hn : 0 ≤ d.task_size.toInt) {w : Int32} (hw : 1 ≤ w) :
    (d.task_size / w).toInt =
      (d.task_size.toInt.toNat / w.toInt.toNat : Nat) := by
  have hpos : 1 ≤ w.toInt := Int32.le_iff_toInt_le.mp hw
  have hne : w ≠ -1 := by
    rintro rfl
    exact absurd hpos (by decide)
  rw [Int32.toInt_div_of_ne_right _ _ hne, Int.natCast_ediv,
    Int.toNat_of_nonneg hn, Int.toNat_of_nonneg (by omega),
    Int.tdiv_eq_ediv_of_nonneg hn]

theorem concurentThreads_pos (d : Setup) : 1 ≤ d.concurentThreads.toNat := by
  unfold concurentThreads
  by_cases hlt : d.hardware_concurrency - 1 < 1
  · rw [if_pos hlt]
    exact Nat.le_refl 1
  · rw [if_neg hlt]
    exact UInt32.le_iff_toNat_le.mp (UInt32.not_lt.mp hlt)

/-- A number that is not negative survives the conversions. -/
theorem toInt_tasks (hn : 0 ≤ d.task_size.toInt) :
    d.tasks.toInt =
      (d.task_size.toInt.toNat / d.concurentThreads.toNat : Nat) := by
  have hsize : d.task_size.toUInt32.toNat = d.task_size.toInt.toNat :=
    Int32.toNat_toUInt32_of_le (Int32.le_iff_toInt_le.mpr hn)
  have hquot : (d.task_size.toUInt32 / d.concurentThreads).toNat =
      d.task_size.toInt.toNat / d.concurentThreads.toNat := by
    rw [UInt32.toNat_div, hsize]
  have hsmall : d.task_size.toInt.toNat / d.concurentThreads.toNat < 2 ^ 31 := by
    have hlt := d.task_size.toInt_lt
    have hle := Nat.div_le_self d.task_size.toInt.toNat
      d.concurentThreads.toNat
    omega
  rw [← hquot] at hsmall ⊢
  exact BitVec.toInt_eq_toNat_of_lt (by
    show 2 * (d.task_size.toUInt32 / d.concurentThreads).toNat < 2 ^ 32
    omega)

theorem toInt_nthreads (d : Setup) :
    d.nthreads.toInt = d.omp_get_num_threads.toInt - 1 := by
  have hteam : 2 ≤ d.omp_get_num_threads.toInt :=
    Int32.le_iff_toInt_le.mp d.team
  have hsub : (d.omp_get_num_threads - 1).toInt =
      d.omp_get_num_threads.toInt - 1 := by
    have hlt := d.omp_get_num_threads.toInt_lt
    rw [Int32.toInt_sub, Int32.toInt_one]
    exact Int.bmod_eq_of_le (by omega) (by omega)
  have hmany : ¬ d.omp_get_num_threads - 1 < 1 := by
    rw [Int32.lt_iff_toInt_lt, hsub, Int32.toInt_one]
    omega
  unfold nthreads
  rw [if_neg hmany, hsub]

/-! ## Each driver -/

theorem makesRequests_pthreads (hn : 0 ≤ d.task_size.toInt) :
    d.MakesRequests d.pthreads ↔
      d.concurentThreads.toNat ∣ d.task_size.toInt.toNat := by
  refine makesRequests_share d.concurentThreads_pos fun k => ?_
  rw [ends_ne_iff, toInt_tasks hn, Int.natCast_inj]

theorem makesRequests_openmp (hn : 0 ≤ d.task_size.toInt) :
    d.MakesRequests d.openmp ↔
      (d.omp_get_num_threads.toInt - 1).toNat ∣ d.task_size.toInt.toNat := by
  have hteam : 2 ≤ d.omp_get_num_threads.toInt :=
    Int32.le_iff_toInt_le.mp d.team
  have hpos : 1 ≤ d.nthreads := by
    rw [Int32.le_iff_toInt_le, toInt_nthreads, Int32.toInt_one]
    omega
  refine makesRequests_share (by omega) fun k => ?_
  rw [ends_lt_iff, toInt_div hn hpos, toInt_nthreads, Int.toNat_natCast]

theorem makesRequests_ipc (hn : 0 ≤ d.task_size.toInt) :
    d.MakesRequests d.ipc ↔
      d.thread_num.toInt.toNat ∣ d.task_size.toInt.toNat := by
  have hpos : 1 ≤ d.thread_num.toInt := Int32.le_iff_toInt_le.mp d.children
  refine makesRequests_share (by omega) fun k => ?_
  rw [ends_ne_iff, task_num, toInt_div hn d.children, Int.natCast_inj]

/-! ## The processes of `ipc.cpp` -/

/-- Whatever the order of their steps, the child processes make the searches of
their loops. -/
theorem total_ipc {p : Ipc.Setup} {s : Ipc.State}
    (hnum : p.thread_num = d.thread_num.toInt.toNat)
    (htask : p.task_num = d.task_num) (h : p.Reachable s)
    (hdone : s.Finished) :
    int32.Total 0 d.ipc (s.children.map fun c => c.searches.length).sum := by
  have hinv := Ipc.inv_reachable h
  have hlen : s.children.length = d.thread_num.toInt.toNat := by
    have hforks := hinv.forks
    rw [hdone.1] at hforks
    exact hforks.trans hnum
  have hpos : 1 ≤ d.thread_num.toInt := Int32.le_iff_toInt_le.mp d.children
  have hcount : ∀ c ∈ s.children, (c.searches.length : Int) = d.task_num.toInt :=
    fun c hc => htask ▸ (hinv.sound c hc).count_of_exited (hdone.2 c hc)
  obtain ⟨c, hc⟩ := List.exists_mem_of_length_pos (l := s.children) (by omega)
  have hall : (s.children.map fun c => c.searches.length) =
      List.replicate d.thread_num.toInt.toNat c.searches.length := by
    rw [List.eq_replicate_iff, List.length_map]
    refine ⟨hlen, ?_⟩
    intro k hk
    obtain ⟨c', hc', rfl⟩ := List.mem_map.mp hk
    exact Int.natCast_inj.mp ((hcount c' hc').trans (hcount c hc).symm)
  refine (int32.total_replicate (by omega)).mpr
    ⟨c.searches.length, ends_ne_iff.mpr (hcount c hc), ?_⟩
  rw [hall, List.sum_replicate_nat]

end Setup

/-- The drivers make the same requests exactly if the number asked for is not
negative and can be divided among the workers of each without a remainder. -/
theorem same_workload_iff (d : Setup) :
    d.SameWorkload ↔ 0 ≤ d.task_size.toInt ∧
      d.concurentThreads.toNat ∣ d.task_size.toInt.toNat ∧
      (d.omp_get_num_threads.toInt - 1).toNat ∣ d.task_size.toInt.toNat ∧
      d.thread_num.toInt.toNat ∣ d.task_size.toInt.toNat := by
  constructor
  · intro h
    have hn : 0 ≤ d.task_size.toInt :=
      Setup.makesRequests_one.mp (h d.naive (by simp))
    exact ⟨hn, (Setup.makesRequests_pthreads hn).mp (h d.pthreads (by simp)),
      (Setup.makesRequests_openmp hn).mp (h d.openmp (by simp)),
      (Setup.makesRequests_ipc hn).mp (h d.ipc (by simp))⟩
  · rintro ⟨hn, hpthreads, hopenmp, hipc⟩ loops hloops
    have hone := Setup.makesRequests_one.mpr hn
    simp only [List.mem_cons, List.not_mem_nil, or_false] at hloops
    rcases hloops with rfl | rfl | rfl | rfl | rfl
    · exact hone
    · exact hone
    · exact (Setup.makesRequests_pthreads hn).mpr hpthreads
    · exact (Setup.makesRequests_openmp hn).mpr hopenmp
    · exact (Setup.makesRequests_ipc hn).mpr hipc

/-- 100 requests and six workers: the parallel drivers make 96 of them. -/
theorem workload_hundred :
    let d : Setup := ⟨100, 7, 7, by decide, 6, by decide⟩
    int32.Total 0 d.naive 100 ∧ int32.Total 0 d.cpp11 100 ∧
      int32.Total 0 d.pthreads 96 ∧ int32.Total 0 d.openmp 96 ∧
      int32.Total 0 d.ipc 96 ∧ ¬ d.SameWorkload := by
  intro d
  have hone : int32.Total 0 d.naive 100 :=
    Setup.makesRequests_one.mpr (by decide)
  refine ⟨hone, hone, ?_, ?_, ?_, ?_⟩
  · exact (int32.total_replicate (by decide)).mpr
      ⟨16, Setup.ends_ne_iff.mpr (by decide), by decide⟩
  · exact (int32.total_replicate (by decide)).mpr
      ⟨16, Setup.ends_lt_iff.mpr (by decide), by decide⟩
  · exact (int32.total_replicate (by decide)).mpr
      ⟨16, Setup.ends_ne_iff.mpr (by decide), by decide⟩
  · intro h
    have hdvd : 6 ∣ 100 :=
      (Setup.makesRequests_ipc (by decide)).mp (h d.ipc (by simp))
    exact absurd hdvd (by decide)

end ParallelBTree.Ports.Workload
