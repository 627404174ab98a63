import CapabilityFlow.Proofs.Jobs
import CapabilityFlow.SymbolTable
import Mathlib.Logic.Relation

namespace CapabilityFlow

/-- A table, and the types that are marked in it. -/
structure MarkedTable where
  table : SymbolTable
  marked : MarkedTypes := ∅

namespace MarkedTable

def host (t : MarkedTable) : Host := t.table.host

def mark (t : MarkedTable) (k : Mark) : MarkedTable := { t with marked := t.marked.insert k }

def markAll (t : MarkedTable) (ks : List Mark) : MarkedTable :=
  { t with marked := t.marked.insertAll ks }

@[simp] theorem host_mark (t : MarkedTable) (k : Mark) : (t.mark k).host = t.host := rfl
@[simp] theorem host_markAll (t : MarkedTable) (ks : List Mark) : (t.markAll ks).host = t.host :=
  rfl
@[simp] theorem marked_mark (t : MarkedTable) (k : Mark) :
    (t.mark k).marked = t.marked.insert k := rfl
@[simp] theorem markAll_nil (t : MarkedTable) : t.markAll [] = t := rfl

theorem markAll_cons (t : MarkedTable) (k : Mark) (ks : List Mark) :
    t.markAll (k :: ks) = (t.mark k).markAll ks := rfl

theorem markAll_append (t : MarkedTable) (ks ks' : List Mark) :
    t.markAll (ks ++ ks') = (t.markAll ks).markAll ks' := by
  rw [markAll, MarkedTypes.insertAll, List.foldl_append]
  rfl

end MarkedTable

/-- How far the work on a job is. -/
inductive Progress (α β : Type) where
  | waiting (job : α)
  | running (result : β) (left : List Mark)
  | ended (result : β)

/-- Jobs at work against one table, and whether one of them has stopped the others. -/
structure Workers (α β : Type) where
  table : MarkedTable
  stopped : Bool
  jobs : List (Progress α β)

namespace Progress

variable {α β : Type}

def result (run : α → β × List Mark) : Progress α β → β
  | waiting job => (run job).1
  | running result _ => result
  | ended result => result

def left (run : α → β × List Mark) : Progress α β → List Mark
  | waiting job => (run job).2
  | running _ left => left
  | ended _ => []

/-- The number of steps that a job still takes: it is started, makes its marks and ends. -/
def steps (run : α → β × List Mark) : Progress α β → Nat
  | waiting job => (run job).2.length + 2
  | running _ left => left.length + 1
  | ended _ => 0

def totalSteps (run : α → β × List Mark) : List (Progress α β) → Nat
  | [] => 0
  | p :: ps => p.steps run + totalSteps run ps

theorem totalSteps_append (run : α → β × List Mark) (ps ps' : List (Progress α β)) :
    totalSteps run (ps ++ ps') = totalSteps run ps + totalSteps run ps' := by
  induction ps with
  | nil => exact (Nat.zero_add _).symm
  | cons p ps ih => rw [List.cons_append, totalSteps, totalSteps, ih, Nat.add_assoc]

end Progress

namespace Workers

variable {α β : Type}

section Steps

variable (run : Host → α → β × List Mark) (stops : β → Bool) (giveUp : α → β)

/-- One step of one worker. -/
inductive Step : Workers α β → Workers α β → Prop
  | start (table : MarkedTable) (before after : List (Progress α β)) (job : α) :
    Step ⟨table, false, before ++ .waiting job :: after⟩
      ⟨table, false, before ++ .running (run table.host job).1 (run table.host job).2 :: after⟩
  | giveUp (table : MarkedTable) (before after : List (Progress α β)) (job : α) :
    Step ⟨table, true, before ++ .waiting job :: after⟩
      ⟨table, true, before ++ .ended (giveUp job) :: after⟩
  | mark (table : MarkedTable) (stopped : Bool) (before after : List (Progress α β)) (result : β)
      (k : Mark) (left : List Mark) :
    Step ⟨table, stopped, before ++ .running result (k :: left) :: after⟩
      ⟨table.mark k, stopped, before ++ .running result left :: after⟩
  | finish (table : MarkedTable) (stopped : Bool) (before after : List (Progress α β))
      (result : β) :
    Step ⟨table, stopped, before ++ .running result [] :: after⟩
      ⟨table, stopped || stops result, before ++ .ended result :: after⟩

def Leads : Workers α β → Workers α β → Prop :=
  Relation.ReflTransGen (Step run stops giveUp)

/-- Some order of steps ends all jobs, with the results and with the types marked in the end. -/
def Ends (table : MarkedTable) (jobs : List α) (results : List β) (marked : MarkedTypes) : Prop :=
  ∃ w : Workers α β, Leads run stops giveUp ⟨table, false, jobs.map .waiting⟩ w ∧
    w.jobs = results.map .ended ∧ w.table.marked = marked

def results (w : Workers α β) : List β := w.jobs.map (Progress.result (run w.table.host))

def due (w : Workers α β) : List Mark :=
  w.table.marked.toList ++ w.jobs.flatMap (Progress.left (run w.table.host))

def work (w : Workers α β) : Nat := Progress.totalSteps (run w.table.host) w.jobs

/-- What no step changes while no job stops the others. -/
structure Keeps (w w' : Workers α β) : Prop where
  host_eq : w'.table.host = w.table.host
  stopped_eq : w'.stopped = w.stopped
  results_eq : w'.results run = w.results run
  mem_due_iff k : k ∈ w'.due run ↔ k ∈ w.due run

end Steps

variable {run : Host → α → β × List Mark} {stops : β → Bool} {giveUp : α → β}

theorem Keeps.refl (w : Workers α β) : Keeps run w w where
  host_eq := rfl
  stopped_eq := rfl
  results_eq := rfl
  mem_due_iff _ := Iff.rfl

theorem Keeps.trans {w w' w'' : Workers α β} (h : Keeps run w w') (h' : Keeps run w' w'') :
    Keeps run w w'' where
  host_eq := h'.host_eq.trans h.host_eq
  stopped_eq := h'.stopped_eq.trans h.stopped_eq
  results_eq := h'.results_eq.trans h.results_eq
  mem_due_iff k := (h'.mem_due_iff k).trans (h.mem_due_iff k)

theorem Step.keeps {w w' : Workers α β} (h : Step run stops giveUp w w')
    (hnever : ∀ result, stops result = false) (hw : w.stopped = false) : Keeps run w w' := by
  cases h with
  | start table before after job =>
    have hdue : (⟨table, false, before ++
        .running (run table.host job).1 (run table.host job).2 :: after⟩ : Workers α β).due run =
          due run ⟨table, false, before ++ .waiting job :: after⟩ := by
      simp [due, Progress.left]
    exact ⟨rfl, rfl, by simp [results, Progress.result], fun k => by rw [hdue]⟩
  | giveUp => cases hw
  | mark table stopped before after result k left =>
    refine ⟨rfl, rfl, by simp [results, Progress.result], fun k' => ?_⟩
    simp only [due, List.flatMap_append, List.flatMap_cons, List.mem_append, Progress.left,
      MarkedTable.host_mark, MarkedTable.marked_mark, MarkedTypes.mem_insert, List.mem_cons]
    grind
  | finish table stopped before after result =>
    have hdue : (⟨table, stopped || stops result, before ++ .ended result :: after⟩ :
        Workers α β).due run =
          due run ⟨table, stopped, before ++ .running result [] :: after⟩ := by
      simp [due, Progress.left]
    exact ⟨rfl, by simp [hnever], by simp [results, Progress.result], fun k => by rw [hdue]⟩

theorem Leads.keeps {w w' : Workers α β} (h : Leads run stops giveUp w w')
    (hnever : ∀ result, stops result = false) (hw : w.stopped = false) : Keeps run w w' := by
  induction h with
  | refl => exact .refl w
  | tail _ hstep ih =>
    have hstopped := ih.stopped_eq.trans hw
    exact ih.trans (hstep.keeps hnever hstopped)

/-- Whatever the order of steps, the jobs end as they do when each is run against the table as it
was in the beginning, and what is marked in the end is what was marked then and what they mark. -/
theorem Ends.eq_runAll {table : MarkedTable} {jobs : List α} {rs : List β} {marked : MarkedTypes}
    (h : Ends run stops giveUp table jobs rs marked) (hnever : ∀ result, stops result = false) :
    rs = (runAll (run table.host) jobs).1 ∧
    ∀ k, k ∈ marked.toList ↔ k ∈ table.marked.toList ∨ k ∈ (runAll (run table.host) jobs).2 := by
  obtain ⟨w, hw, hjobs, rfl⟩ := h
  have hkeeps : Keeps run _ w := hw.keeps hnever rfl
  constructor
  · have hended : w.results run = rs := by
      rw [results, hjobs, List.map_map]
      exact List.map_id rs
    rw [← hended, hkeeps.results_eq, results, List.map_map]
    rfl
  · intro k
    have hended : w.due run = w.table.marked.toList := by
      rw [due, hjobs, List.flatMap_map]
      simp [Progress.left]
    have hbegun : due run ⟨table, false, jobs.map .waiting⟩ =
        table.marked.toList ++ (runAll (run table.host) jobs).2 := by
      rw [due, List.flatMap_map]
      rfl
    rw [← hended, hkeeps.mem_due_iff, hbegun, List.mem_append]

theorem leads_markAll (stopped : Bool) (before after : List (Progress α β)) (result : β)
    (ks : List Mark) (table : MarkedTable) : Leads run stops giveUp
      ⟨table, stopped, before ++ .running result ks :: after⟩
      ⟨table.markAll ks, stopped, before ++ .running result [] :: after⟩ := by
  induction ks generalizing table with
  | nil => exact .refl
  | cons k ks ih =>
    rw [MarkedTable.markAll_cons]
    exact .head (.mark table stopped before after result k ks) (ih (table.mark k))

theorem leads_run (before after : List (Progress α β)) (job : α) (table : MarkedTable) :
    Leads run stops giveUp ⟨table, false, before ++ .waiting job :: after⟩
      ⟨table.markAll (run table.host job).2, stops (run table.host job).1,
        before ++ .ended (run table.host job).1 :: after⟩ := by
  have hmarks : Leads run stops giveUp _ _ := leads_markAll false before after
    (run table.host job).1 (run table.host job).2 table
  have hfinish : Step run stops giveUp _ _ := .finish (table.markAll (run table.host job).2) false
    before after (run table.host job).1
  rw [Bool.false_or] at hfinish
  exact .head (.start table before after job) (.tail hmarks hfinish)

theorem leads_runJobs (jobs : List α) (before : List (Progress α β)) (stopped : Bool)
    (table : MarkedTable) :
    ∃ stopped', Leads run stops giveUp ⟨table, stopped, before ++ jobs.map .waiting⟩
      ⟨table.markAll (runJobs (run table.host) stops giveUp stopped jobs).2, stopped',
        before ++ (runJobs (run table.host) stops giveUp stopped jobs).1.map .ended⟩ := by
  induction jobs generalizing before stopped table with
  | nil => exact ⟨stopped, .refl⟩
  | cons job jobs ih =>
    cases stopped with
    | true =>
      obtain ⟨stopped', hrest⟩ := ih (before ++ [.ended (giveUp job)]) true table
      refine ⟨stopped', .head (.giveUp table before (jobs.map .waiting) job) ?_⟩
      rw [← List.append_cons, ← List.append_cons] at hrest
      exact hrest
    | false =>
      obtain ⟨stopped', hrest⟩ := ih (before ++ [.ended (run table.host job).1])
        (stops (run table.host job).1) (table.markAll (run table.host job).2)
      refine ⟨stopped', (leads_run before (jobs.map .waiting) job table).trans ?_⟩
      rw [← List.append_cons, ← List.append_cons, ← MarkedTable.markAll_append] at hrest
      exact hrest

theorem ends_runJobs (table : MarkedTable) (jobs : List α) :
    Ends run stops giveUp table jobs (runJobs (run table.host) stops giveUp false jobs).1
      (table.marked.insertAll (runJobs (run table.host) stops giveUp false jobs).2) := by
  obtain ⟨stopped, hleads⟩ := leads_runJobs jobs [] false table
  exact ⟨_, hleads, rfl, rfl⟩

theorem Step.work_lt {w w' : Workers α β} (h : Step run stops giveUp w w') :
    w'.work run < w.work run := by
  cases h with
  | start | giveUp | mark | finish =>
    simp [work, Progress.totalSteps_append, Progress.totalSteps, Progress.steps]

theorem Step.cons {w w' : Workers α β} (h : Step run stops giveUp w w') (p : Progress α β) :
    Step run stops giveUp ⟨w.table, w.stopped, p :: w.jobs⟩
      ⟨w'.table, w'.stopped, p :: w'.jobs⟩ := by
  cases h with
  | start table before after job => exact .start table (p :: before) after job
  | giveUp table before after job => exact .giveUp table (p :: before) after job
  | mark table stopped before after result k left =>
    exact .mark table stopped (p :: before) after result k left
  | finish table stopped before after result =>
    exact .finish table stopped (p :: before) after result

theorem ended_or_step (table : MarkedTable) (stopped : Bool) (jobs : List (Progress α β)) :
    (∃ rs : List β, jobs = rs.map .ended) ∨
      ∃ w, Step run stops giveUp ⟨table, stopped, jobs⟩ w := by
  induction jobs with
  | nil => exact .inl ⟨[], rfl⟩
  | cons p jobs ih =>
    cases p with
    | waiting job =>
      cases stopped with
      | false => exact .inr ⟨_, .start table [] jobs job⟩
      | true => exact .inr ⟨_, .giveUp table [] jobs job⟩
    | running result left =>
      cases left with
      | nil => exact .inr ⟨_, .finish table stopped [] jobs result⟩
      | cons k left => exact .inr ⟨_, .mark table stopped [] jobs result k left⟩
    | ended result =>
      rcases ih with ⟨rs, rfl⟩ | ⟨w, hw⟩
      · exact .inl ⟨result :: rs, rfl⟩
      · exact .inr ⟨_, hw.cons (.ended result)⟩

/-- Workers do not get stuck: from wherever they are, they can go on until all jobs are ended. As
each step leaves less work, they cannot go on for ever. -/
theorem leads_to_end (w : Workers α β) :
    ∃ (w' : Workers α β) (rs : List β), Leads run stops giveUp w w' ∧ w'.jobs = rs.map .ended := by
  induction hn : w.work run using Nat.strongRecOn generalizing w with
  | ind n ih =>
    have hnext : (∃ rs : List β, w.jobs = rs.map .ended) ∨ ∃ w', Step run stops giveUp w w' :=
      ended_or_step w.table w.stopped w.jobs
    rcases hnext with ⟨rs, hrs⟩ | ⟨next, hstep⟩
    · exact ⟨w, rs, .refl, hrs⟩
    · have hless : next.work run < n := hn ▸ hstep.work_lt
      obtain ⟨w', rs, hleads, hrs⟩ := ih _ hless next rfl
      exact ⟨w', rs, .head hstep hleads, hrs⟩

end Workers

end CapabilityFlow
