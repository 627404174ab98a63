import CapabilityFlow.Batch

namespace CapabilityFlow

section Jobs

variable {α β : Type} {run : α → β × List Mark} {stops : β → Bool} {giveUp : α → β}

/-- The results of jobs that are all run, with all marks that they make. -/
def runAll (run : α → β × List Mark) (jobs : List α) : List β × List Mark :=
  (jobs.map fun job => (run job).1, jobs.flatMap fun job => (run job).2)

theorem runAll_cons (job : α) (jobs : List α) : runAll run (job :: jobs) =
    ((run job).1 :: (runAll run jobs).1, (run job).2 ++ (runAll run jobs).2) := rfl

theorem runAll_append (jobs jobs' : List α) : runAll run (jobs ++ jobs') =
    ((runAll run jobs).1 ++ (runAll run jobs').1, (runAll run jobs).2 ++ (runAll run jobs').2) := by
  rw [runAll, List.map_append, List.flatMap_append]
  rfl

theorem runJobs_cons (job : α) (jobs : List α) : runJobs run stops giveUp false (job :: jobs) =
    ((run job).1 :: (runJobs run stops giveUp (stops (run job).1) jobs).1,
      (run job).2 ++ (runJobs run stops giveUp (stops (run job).1) jobs).2) := rfl

theorem runJobs_cons_of_stopped (job : α) (jobs : List α) :
    runJobs run stops giveUp true (job :: jobs) =
      (giveUp job :: (runJobs run stops giveUp true jobs).1,
        (runJobs run stops giveUp true jobs).2) := rfl

theorem runJobs_stopped (jobs : List α) :
    runJobs run stops giveUp true jobs = (jobs.map giveUp, []) := by
  induction jobs with
  | nil => rfl
  | cons job jobs ih => rw [runJobs_cons_of_stopped, ih, List.map_cons]

theorem runJobs_eq_runAll {jobs : List α} (h : ∀ job ∈ jobs, stops (run job).1 = false) :
    runJobs run stops giveUp false jobs = runAll run jobs := by
  induction jobs with
  | nil => rfl
  | cons job jobs ih =>
    rw [List.forall_mem_cons] at h
    rw [runJobs_cons, h.1, ih h.2, runAll_cons]

/-- The first job that stops the run is run to its end, and the jobs behind it are given up. -/
theorem runJobs_of_findIdx? {jobs : List α} {k : Nat}
    (h : jobs.findIdx? (fun job => stops (run job).1) = some k) :
    runJobs run stops giveUp false jobs =
      ((runAll run (jobs.take (k + 1))).1 ++ (jobs.drop (k + 1)).map giveUp,
        (runAll run (jobs.take (k + 1))).2) := by
  induction jobs generalizing k with
  | nil => cases h
  | cons job jobs ih =>
    rw [List.findIdx?_cons] at h
    split at h
    · rename_i hstop
      cases h
      rw [runJobs_cons, hstop, runJobs_stopped]
      rfl
    · rename_i hstop
      obtain ⟨k, hk, rfl⟩ := Option.map_eq_some_iff.1 h
      rw [runJobs_cons, eq_false_of_ne_true hstop, ih hk]
      rfl

theorem length_runJobs (stopped : Bool) (jobs : List α) :
    (runJobs run stops giveUp stopped jobs).1.length = jobs.length := by
  induction jobs generalizing stopped with
  | nil => rfl
  | cons job jobs ih =>
    cases stopped with
    | true => rw [runJobs_cons_of_stopped, List.length_cons, ih, List.length_cons]
    | false => rw [runJobs_cons, List.length_cons, ih, List.length_cons]

theorem forall_runJobs {p : β → Prop} (hrun : ∀ job, p (run job).1)
    (hgiveUp : ∀ job, p (giveUp job)) (stopped : Bool) (jobs : List α) :
    ∀ result ∈ (runJobs run stops giveUp stopped jobs).1, p result := by
  induction jobs generalizing stopped with
  | nil => exact fun _ h => absurd h List.not_mem_nil
  | cons job jobs ih =>
    cases stopped with
    | true => exact List.forall_mem_cons.2 ⟨hgiveUp job, ih true⟩
    | false => exact List.forall_mem_cons.2 ⟨hrun job, ih _⟩

/-- What a run does with its results afterwards may be done to each result at once, if it decides
nothing about the jobs behind. -/
theorem runJobs_map {γ : Type} {run' : α → γ × List Mark} {stops' : γ → Bool} {giveUp' : α → γ}
    (f : β → γ) (hrun : ∀ job, run' job = (f (run job).1, (run job).2))
    (hstops : ∀ result, stops' (f result) = stops result)
    (hgiveUp : ∀ job, giveUp' job = f (giveUp job)) (stopped : Bool) (jobs : List α) :
    runJobs run' stops' giveUp' stopped jobs =
      ((runJobs run stops giveUp stopped jobs).1.map f,
        (runJobs run stops giveUp stopped jobs).2) := by
  induction jobs generalizing stopped with
  | nil => rfl
  | cons job jobs ih =>
    cases stopped with
    | true =>
      rw [runJobs_cons_of_stopped, ih, hgiveUp]
      rfl
    | false =>
      rw [runJobs_cons, hrun, hstops, ih]
      rfl

end Jobs

end CapabilityFlow
