import CapabilityFlow.Proofs.SiteReports

namespace CapabilityFlow

/-- Whether a diagnostic has one of the codes that are written; what is no code has no effect. -/
def suppresses (codes : List String) (d : Diagnostic) : Bool :=
  codes.any fun text => parseCode? text == some d.code

theorem length_filter_add_countP (codes : List String) (ds : List Diagnostic) :
    (ds.filter fun d => !suppresses codes d).length + ds.countP (suppresses codes) =
      ds.length := by
  have hsplit := List.length_eq_countP_add_countP (suppresses codes) (l := ds)
  simp only [Bool.not_eq_true, Bool.decide_eq_false] at hsplit
  rw [← List.countP_eq_length_filter, hsplit, Nat.add_comm]

theorem length_sub_length_filter (codes : List String) (ds : List Diagnostic) :
    ds.length - (ds.filter fun d => !suppresses codes d).length = ds.countP (suppresses codes) := by
  have htotal := length_filter_add_countP codes ds
  omega

namespace Config

variable {config : Config} {codes : List String}

def suppressing (config : Config) (codes : List String) : Config :=
  { config with suppressed := codes }

@[simp] theorem options_suppressing : (config.suppressing codes).options = config.options := rfl

@[simp] theorem failFast_suppressing : (config.suppressing codes).failFast = config.failFast := rfl

theorem isReported_suppressing (d : Diagnostic) :
    d.isReported (config.suppressing codes).suppressedCodes = !suppresses codes d := by
  have hmem : d.code ∈ codes.filterMap parseCode? ↔ suppresses codes d = true := by
    simp [suppresses]
  rw [Diagnostic.isReported, List.contains_eq_mem, suppressedCodes, suppressing]
  simp only [hmem, Bool.decide_eq_true]

theorem filter_suppressing (ds : List Diagnostic) :
    ds.filter (·.isReported (config.suppressing codes).suppressedCodes) =
      ds.filter fun d => !suppresses codes d := by
  simp only [isReported_suppressing]

end Config

namespace Outcome

variable {codes : List String}

def suppress (codes : List String) : Outcome → Outcome
  | completed found counted =>
    completed (found.filter fun d => !suppresses codes d)
      (counted + found.countP (suppresses codes))
  | outcome => outcome

@[simp] theorem diagnostics_suppress (o : Outcome) :
    (o.suppress codes).diagnostics = o.diagnostics.filter fun d => !suppresses codes d := by
  cases o <;> rfl

@[simp] theorem violation?_suppress (o : Outcome) :
    (o.suppress codes).violation? = o.violation? := by
  cases o <;> rfl

@[simp] theorem isCompleted_suppress (o : Outcome) :
    (o.suppress codes).isCompleted = o.isCompleted := by
  cases o <;> rfl

@[simp] theorem isExempt_suppress (o : Outcome) : (o.suppress codes).isExempt = o.isExempt := by
  cases o <;> rfl

@[simp] theorem isAborted_suppress (o : Outcome) : (o.suppress codes).isAborted = o.isAborted := by
  cases o <;> rfl

@[simp] theorem isCancelled_suppress (o : Outcome) :
    (o.suppress codes).isCancelled = o.isCancelled := by
  cases o <;> rfl

theorem suppressed_suppress (o : Outcome) :
    (o.suppress codes).suppressed = o.suppressed + o.diagnostics.countP (suppresses codes) := by
  cases o <;> rfl

theorem isClean_iff {o : Outcome} : o.isClean = true ↔
    o.diagnostics = [] ∧ o.violation? = none ∧ o.isCancelled = false := by
  cases o <;> simp [isClean, diagnostics, violation?, isCancelled]

theorem total_suppress (codes : List String) (o : Outcome) :
    (o.suppress codes).diagnostics.length + (o.suppress codes).suppressed =
      o.diagnostics.length + o.suppressed := by
  have htotal := length_filter_add_countP codes o.diagnostics
  rw [diagnostics_suppress, suppressed_suppress]
  omega

end Outcome

def MethodReport.suppress (codes : List String) (m : MethodReport) : MethodReport :=
  ⟨m.method, m.outcome.suppress codes⟩

namespace BatchReport

variable {codes : List String}

def suppress (codes : List String) (r : BatchReport) : BatchReport :=
  ⟨r.methods.map (·.suppress codes)⟩

theorem diagnostics_suppress (r : BatchReport) :
    (r.suppress codes).diagnostics = r.diagnostics.filter fun d => !suppresses codes d.2 := by
  rw [diagnostics, diagnostics, suppress, List.flatMap_map, List.filter_flatMap]
  simp only [MethodReport.suppress, Outcome.diagnostics_suppress, List.filter_map,
    Function.comp_def]

theorem aborted_suppress (r : BatchReport) : (r.suppress codes).aborted = r.aborted := by
  rw [aborted, aborted, suppress, List.filterMap_map]
  simp [Function.comp_def, MethodReport.suppress]

theorem countP_suppress {p : Outcome → Bool} (hp : ∀ o, p (Outcome.suppress codes o) = p o)
    (r : BatchReport) :
    (r.suppress codes).methods.countP (p ·.outcome) = r.methods.countP (p ·.outcome) := by
  rw [suppress, List.countP_map]
  simp [Function.comp_def, MethodReport.suppress, hp]

theorem total_suppress (r : BatchReport) :
    (r.suppress codes).diagnosticCount + (r.suppress codes).suppressedCount =
      r.diagnosticCount + r.suppressedCount := by
  obtain ⟨ms⟩ := r
  induction ms with
  | nil => rfl
  | cons m ms ih =>
    have hcons (m : MethodReport) (ms : List MethodReport) :
        (BatchReport.mk (m :: ms)).diagnosticCount + (BatchReport.mk (m :: ms)).suppressedCount =
          m.outcome.diagnostics.length + m.outcome.suppressed +
            ((BatchReport.mk ms).diagnosticCount + (BatchReport.mk ms).suppressedCount) := by
      simp [diagnosticCount, diagnostics, suppressedCount]
      omega
    have hhead := Outcome.total_suppress codes m.outcome
    rw [hcons, ← ih, ← hhead]
    exact hcons (m.suppress codes) (ms.map (·.suppress codes))

/-- The outcomes of the bodies are of four sorts, and a report is clean if it is empty but for
bodies that are completed or exempt. -/
structure Accounts (r : BatchReport) (bodies : Nat) : Prop where
  counts : r.completedCount + r.exemptCount + r.aborted.length + r.cancelledCount = bodies
  isClean_iff : r.isClean = true ↔
    r.diagnosticCount = 0 ∧ r.aborted.length = 0 ∧ r.cancelledCount = 0

theorem accounts (r : BatchReport) : r.Accounts r.methods.length := by
  obtain ⟨ms⟩ := r
  constructor
  case counts =>
    induction ms with
    | nil => rfl
    | cons m ms ih =>
      obtain ⟨method, outcome⟩ := m
      cases outcome <;>
        simp [completedCount, exemptCount, aborted, cancelledCount, Outcome.isCompleted,
          Outcome.isExempt, Outcome.isCancelled, Outcome.violation?] at ih ⊢ <;> omega
  case isClean_iff =>
    simp only [isClean, List.all_eq_true, Outcome.isClean_iff, forall_and, diagnosticCount,
      diagnostics, aborted, cancelledCount, List.length_eq_zero_iff, List.flatMap_eq_nil_iff,
      List.map_eq_nil_iff, List.filterMap_eq_nil_iff, Option.map_eq_none_iff, List.countP_eq_zero,
      Bool.not_eq_true]

/-- `report` differs from `plain` only by the diagnostics of the codes, which are counted. -/
structure Filters (codes : List String) (plain report : BatchReport) : Prop where
  methods_eq : report.methods = plain.methods.map (·.suppress codes)
  suppressed_eq_zero : ∀ m ∈ plain.methods, m.outcome.suppressed = 0
  diagnostics_eq : report.diagnostics = plain.diagnostics.filter fun d => !suppresses codes d.2
  aborted_eq : report.aborted = plain.aborted
  completedCount_eq : report.completedCount = plain.completedCount
  exemptCount_eq : report.exemptCount = plain.exemptCount
  cancelledCount_eq : report.cancelledCount = plain.cancelledCount
  total_eq : report.diagnosticCount + report.suppressedCount = plain.diagnosticCount

theorem suppressedCount_eq_zero {r : BatchReport}
    (h : ∀ m ∈ r.methods, m.outcome.suppressed = 0) : r.suppressedCount = 0 := by
  obtain ⟨ms⟩ := r
  induction ms with
  | nil => rfl
  | cons m ms ih =>
    rw [List.forall_mem_cons] at h
    have hrest := ih h.2
    rw [suppressedCount] at hrest ⊢
    rw [List.foldr_cons, h.1, hrest]

theorem filters_suppress {plain : BatchReport}
    (h : ∀ m ∈ plain.methods, m.outcome.suppressed = 0) :
    plain.Filters codes (plain.suppress codes) where
  methods_eq := rfl
  suppressed_eq_zero := h
  diagnostics_eq := diagnostics_suppress plain
  aborted_eq := aborted_suppress plain
  completedCount_eq := countP_suppress Outcome.isCompleted_suppress plain
  exemptCount_eq := countP_suppress Outcome.isExempt_suppress plain
  cancelledCount_eq := countP_suppress Outcome.isCancelled_suppress plain
  total_eq := by rw [total_suppress, suppressedCount_eq_zero h, Nat.add_zero]

end BatchReport

namespace MethodBody

variable {m : MethodBody} {host : Host} {config : Config} {codes : List String}

theorem run_suppressing_of_exempt {reason : Exemption}
    (h : m.exemption? host config.options = some reason) :
    m.run host (config.suppressing codes) = (.exempt reason, []) := by
  simp only [run, Config.options_suppressing, h]

theorem run_suppressing_of_error {v : Violation} (h : m.exemption? host config.options = none)
    (hresult : (m.analyze host config.options).result = .error v) :
    m.run host (config.suppressing codes) =
      (.aborted v, (m.analyze host config.options).marks) := by
  simp only [run, Config.options_suppressing, h, hresult]

theorem run_suppressing_of_ok {found : List Diagnostic}
    (h : m.exemption? host config.options = none)
    (hresult : (m.analyze host config.options).result = .ok found) :
    m.run host (config.suppressing codes) =
      (.completed (found.filter fun d => !suppresses codes d) (found.countP (suppresses codes)),
        (m.analyze host config.options).marks) := by
  simp only [run, Config.options_suppressing, h, hresult, Config.filter_suppressing,
    length_sub_length_filter]

theorem run_plain : (m.run host (config.suppressing [])).1.suppressed = 0 := by
  cases h : m.exemption? host config.options with
  | some reason =>
    rw [run_suppressing_of_exempt h]
    rfl
  | none =>
    cases hresult : (m.analyze host config.options).result with
    | error v =>
      rw [run_suppressing_of_error h hresult]
      rfl
    | ok found =>
      rw [run_suppressing_of_ok h hresult, Outcome.suppressed, List.countP_eq_zero]
      exact fun _ _ => Bool.false_ne_true

theorem run_suppressing : m.run host (config.suppressing codes) =
    ((m.run host (config.suppressing [])).1.suppress codes,
      (m.run host (config.suppressing [])).2) := by
  cases h : m.exemption? host config.options with
  | some reason =>
    rw [run_suppressing_of_exempt h, run_suppressing_of_exempt h]
    rfl
  | none =>
    cases hresult : (m.analyze host config.options).result with
    | error v =>
      rw [run_suppressing_of_error h hresult, run_suppressing_of_error h hresult]
      rfl
    | ok found =>
      have hall : (found.filter fun d => !suppresses [] d) = found :=
        List.filter_eq_self.2 fun _ _ => rfl
      have hnone : found.countP (suppresses []) = 0 :=
        List.countP_eq_zero.2 fun _ _ => Bool.false_ne_true
      rw [run_suppressing_of_ok h hresult, run_suppressing_of_ok h hresult, hall, hnone,
        Outcome.suppress, Nat.zero_add]

theorem report_suppressing : m.report host (config.suppressing codes) =
    ((m.report host (config.suppressing [])).1.suppress codes,
      (m.report host (config.suppressing [])).2) := by
  rw [report, run_suppressing]
  rfl

end MethodBody

namespace DeclarationReport

variable {codes : List String} {config : Config} {outcomes : List SiteOutcome}
  {declarations : List Declaration}

structure Filters (codes : List String) (plain report : DeclarationReport) : Prop where
  diagnostics_eq : report.diagnostics = plain.diagnostics.filter fun d => !suppresses codes d
  suppressed_eq_zero : plain.suppressed = 0
  suppressed_eq : report.suppressed = plain.diagnostics.countP (suppresses codes)
  aborted_eq : report.aborted = plain.aborted
  cancelled_eq : report.cancelled = plain.cancelled
  total_eq : report.diagnostics.length + report.suppressed = plain.diagnostics.length

theorem filters_ofOutcomes :
    (ofOutcomes (config.suppressing []).suppressedCodes outcomes declarations).Filters codes
      (ofOutcomes (config.suppressing codes).suppressedCodes outcomes declarations) := by
  have hnone : (config.suppressing []).suppressed = [] := rfl
  have hplain := Config.filter_isReported hnone
    (outcomes.flatMap (·.diagnostics) ++ Declaration.validateAll declarations)
  constructor
  case diagnostics_eq => rw [ofOutcomes, ofOutcomes, hplain, Config.filter_suppressing]
  case suppressed_eq_zero =>
    rw [ofOutcomes, hplain]
    exact Nat.sub_self _
  case suppressed_eq =>
    rw [ofOutcomes, ofOutcomes, hplain, Config.filter_suppressing]
    exact length_sub_length_filter codes _
  case aborted_eq => rfl
  case cancelled_eq => rfl
  case total_eq =>
    rw [ofOutcomes, ofOutcomes, hplain, Config.filter_suppressing]
    exact Nat.add_sub_of_le (List.length_filter_le _ _)

def Accounts (r : DeclarationReport) : Prop :=
  r.isClean = true ↔ r.diagnostics.length = 0 ∧ r.aborted.length = 0 ∧ r.cancelled = 0

theorem accounts (r : DeclarationReport) : r.Accounts := by
  simp [Accounts, isClean, and_assoc]

end DeclarationReport

section Runs

variable {host : Host} {config : Config} {codes : List String} {cancelled : Bool}

theorem batch_suppressing (ms : List MethodBody) :
    batch host (config.suppressing codes) cancelled ms =
      ((batch host (config.suppressing []) cancelled ms).1.suppress codes,
        (batch host (config.suppressing []) cancelled ms).2) := by
  have hjobs : runJobs (MethodBody.report · host (config.suppressing codes))
      (fun r => config.failFast && r.outcome.isAborted) (fun m => ⟨m.method, .cancelled⟩)
      cancelled ms = ((runJobs (MethodBody.report · host (config.suppressing []))
        (fun r => config.failFast && r.outcome.isAborted) (fun m => ⟨m.method, .cancelled⟩)
        cancelled ms).1.map (·.suppress codes), (runJobs (MethodBody.report · host
          (config.suppressing [])) (fun r => config.failFast && r.outcome.isAborted)
        (fun m => ⟨m.method, .cancelled⟩) cancelled ms).2) := by
    apply runJobs_map
    · exact fun _ => MethodBody.report_suppressing
    · exact fun r => congrArg (config.failFast && ·) (Outcome.isAborted_suppress r.outcome)
    · exact fun _ => rfl
  simp only [batch, Config.failFast_suppressing, hjobs]
  rfl

theorem batch_filters (ms : List MethodBody) :
    (batch host (config.suppressing []) cancelled ms).1.Filters codes
      (batch host (config.suppressing codes) cancelled ms).1 ∧
    (batch host (config.suppressing codes) cancelled ms).2 =
      (batch host (config.suppressing []) cancelled ms).2 ∧
    (batch host (config.suppressing codes) cancelled ms).1.Accounts ms.length := by
  have hlength : (batch host (config.suppressing codes) cancelled ms).1.methods.length =
      ms.length :=
    length_runJobs cancelled ms
  have hunsuppressed : ∀ m ∈ (batch host (config.suppressing []) cancelled ms).1.methods,
      m.outcome.suppressed = 0 :=
    forall_runJobs (p := fun m : MethodReport => m.outcome.suppressed = 0)
      (fun _ => MethodBody.run_plain) (fun _ => rfl) cancelled ms
  have haccounts := BatchReport.accounts (batch host (config.suppressing codes) cancelled ms).1
  have hbatch : batch host (config.suppressing codes) cancelled ms = _ := batch_suppressing ms
  rw [hlength] at haccounts
  rw [hbatch] at haccounts ⊢
  exact ⟨BatchReport.filters_suppress hunsuppressed, rfl, haccounts⟩

theorem checkDeclarations_filters (input : Declarations) :
    (checkDeclarations host (config.suppressing []) cancelled input).1.Filters codes
      (checkDeclarations host (config.suppressing codes) cancelled input).1 ∧
    (checkDeclarations host (config.suppressing codes) cancelled input).2 =
      (checkDeclarations host (config.suppressing []) cancelled input).2 ∧
    (checkDeclarations host (config.suppressing codes) cancelled input).1.Accounts :=
  ⟨DeclarationReport.filters_ofOutcomes, rfl, DeclarationReport.accounts _⟩

end Runs

namespace MarkedTable

variable {t : MarkedTable} {config : Config}

theorem BatchEnds.eq_batch {ms : List MethodBody} {report : BatchReport} {marked : MarkedTypes}
    (h : t.BatchEnds config ms report marked) (hc : config.failFast = false) :
    report = (CapabilityFlow.batch t.host config false ms).1 ∧
    ∀ k, k ∈ marked.toList ↔
      k ∈ t.marked.toList ∨ k ∈ (CapabilityFlow.batch t.host config false ms).2 := by
  have hbatch : CapabilityFlow.batch t.host config false ms =
      (⟨(runAll (·.report t.host config) ms).1⟩, (runAll (·.report t.host config) ms).2) := by
    rw [← Config.withFailFast_eq_self hc]
    exact batch_withoutFailFast
  obtain ⟨hmethods, hmarked⟩ := h.eq_runAll hc
  rw [hbatch]
  refine ⟨by rw [← hmethods], fun k => ?_⟩
  rw [hmarked, runAll, List.mem_flatMap]

theorem DeclarationEnds.eq_checkDeclarations {input : Declarations} {report : DeclarationReport}
    {marked : MarkedTypes} (h : t.DeclarationEnds config input report marked)
    (hc : config.failFast = false) :
    report = (CapabilityFlow.checkDeclarations t.host config false input).1 ∧
    ∀ k, k ∈ marked.toList ↔ k ∈ t.marked.toList ∨
      k ∈ (CapabilityFlow.checkDeclarations t.host config false input).2 := by
  have hchecked : CapabilityFlow.checkDeclarations t.host config false input =
      (.ofOutcomes config.suppressedCodes (runAll (·.run t.host) input.sites).1 input.declarations,
        (runAll (·.run t.host) input.sites).2) := by
    rw [← Config.withFailFast_eq_self hc]
    exact checkDeclarations_withoutFailFast
  rw [hchecked]
  exact h.eq_runAll hc

/-- Suppression only filters. With one worker, whether it stops at a violation or not, and with any
workers that do not stop, a run that suppresses codes has the outcomes and the marks of the run that
suppresses none; from its report the diagnostics of these codes are missing, and it counts them. -/
theorem suppression_filters (t : MarkedTable) (config : Config) (codes : List String)
    (ms : List MethodBody) (input : Declarations) :
    (∀ cancelled,
      let plain := CapabilityFlow.batch t.host (config.suppressing []) cancelled ms
      let report := CapabilityFlow.batch t.host (config.suppressing codes) cancelled ms
      plain.1.Filters codes report.1 ∧ report.2 = plain.2 ∧ report.1.Accounts ms.length) ∧
    (∀ cancelled,
      let plain := CapabilityFlow.checkDeclarations t.host (config.suppressing []) cancelled input
      let report :=
        CapabilityFlow.checkDeclarations t.host (config.suppressing codes) cancelled input
      plain.1.Filters codes report.1 ∧ report.2 = plain.2 ∧ report.1.Accounts) ∧
    (config.failFast = false → ∀ plain marked report marked',
      t.BatchEnds (config.suppressing []) ms plain marked →
      t.BatchEnds (config.suppressing codes) ms report marked' →
      plain.Filters codes report ∧ (∀ k, k ∈ marked'.toList ↔ k ∈ marked.toList) ∧
        report.Accounts ms.length) ∧
    (config.failFast = false → ∀ plain marked report marked',
      t.DeclarationEnds (config.suppressing []) input plain marked →
      t.DeclarationEnds (config.suppressing codes) input report marked' →
      plain.Filters codes report ∧ (∀ k, k ∈ marked'.toList ↔ k ∈ marked.toList) ∧
        report.Accounts) := by
  refine ⟨fun _ => batch_filters ms, fun _ => checkDeclarations_filters input, ?_, ?_⟩
  · intro hc plain marked report marked' h h'
    obtain ⟨rfl, hmarked⟩ := h.eq_batch hc
    obtain ⟨rfl, hmarked'⟩ := h'.eq_batch hc
    obtain ⟨hfilters, hmarks, haccounts⟩ := batch_filters ms
    refine ⟨hfilters, fun k => ?_, haccounts⟩
    rw [hmarked', hmarked, hmarks]
  · intro hc plain marked report marked' h h'
    obtain ⟨rfl, hmarked⟩ := h.eq_checkDeclarations hc
    obtain ⟨rfl, hmarked'⟩ := h'.eq_checkDeclarations hc
    obtain ⟨hfilters, hmarks, haccounts⟩ := checkDeclarations_filters input
    refine ⟨hfilters, fun k => ?_, haccounts⟩
    rw [hmarked', hmarked, hmarks]

def parameterCodes : List String := ["IL2067", "parameter", " 2067 ", "IL2097"]

theorem suppression_filters_keepers :
    let t : MarkedTable := ⟨keepGenericTable, ∅⟩
    let config : Config := {}
    let plain := (t.batch (config.suppressing []) keepers).1
    let report := (t.batch (config.suppressing parameterCodes) keepers).1
    let plain' := (t.checkDeclarations (config.suppressing []) fillSites).1
    let report' := (t.checkDeclarations (config.suppressing parameterCodes) fillSites).1
    plain.Filters parameterCodes report ∧ report.Accounts keepers.length ∧
    (plain.diagnosticCount, report.diagnosticCount, report.suppressedCount) = (1, 0, 1) ∧
    report.isClean = false ∧
    plain'.Filters parameterCodes report' ∧
    (plain'.diagnostics.map (·.code), report'.diagnostics.map (·.code), report'.suppressed) =
      ([2091, 2091, 2097], [2091, 2091], 1) := by
  intro t config plain report plain' report'
  have hc : config.failFast = false := rfl
  obtain ⟨-, -, hbodies, hsites⟩ := suppression_filters t config parameterCodes keepers fillSites
  obtain ⟨hfilters, -, haccounts⟩ := hbodies hc _ _ _ _ batchEnds_batch batchEnds_batch
  obtain ⟨hfilters', -⟩ :=
    hsites hc _ _ _ _ declarationEnds_checkDeclarations declarationEnds_checkDeclarations
  exact ⟨hfilters, haccounts, by decide +kernel, by decide +kernel, hfilters', by decide +kernel⟩

end MarkedTable

end CapabilityFlow
