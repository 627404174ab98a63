import CapabilityFlow.Proofs.BatchIndependence

namespace CapabilityFlow

def Config.withFailFast (config : Config) (failFast : Bool) : Config :=
  { config with failFast := failFast }

theorem Config.withFailFast_eq_self {config : Config} (hc : config.failFast = false) :
    config.withFailFast false = config := by
  rw [withFailFast, ← hc]

section Bodies

variable {host : Host} {config : Config} {ms : List MethodBody}

theorem batch_withFailFast (failFast : Bool) :
    batch host (config.withFailFast failFast) false ms =
      (⟨(runJobs (·.report host config) (fun r => failFast && r.outcome.isAborted)
          (fun m => ⟨m.method, .cancelled⟩) false ms).1⟩,
        (runJobs (·.report host config) (fun r => failFast && r.outcome.isAborted)
          (fun m => ⟨m.method, .cancelled⟩) false ms).2) := rfl

theorem batch_withoutFailFast : batch host (config.withFailFast false) false ms =
    (⟨(runAll (·.report host config) ms).1⟩, (runAll (·.report host config) ms).2) := by
  rw [batch_withFailFast, runJobs_eq_runAll fun _ _ => rfl]

theorem findIdx?_aborted : (batch host (config.withFailFast false) false ms).1.methods.findIdx?
    (·.outcome.isAborted) = ms.findIdx? fun m => (m.report host config).1.outcome.isAborted := by
  rw [batch_withoutFailFast]
  exact List.findIdx?_map

theorem batch_failFast_of_none
    (h : (batch host (config.withFailFast false) false ms).1.methods.findIdx?
      (·.outcome.isAborted) = none) :
    batch host (config.withFailFast true) false ms =
      batch host (config.withFailFast false) false ms := by
  rw [findIdx?_aborted, List.findIdx?_eq_none_iff] at h
  rw [batch_withoutFailFast, batch_withFailFast, runJobs_eq_runAll]
  exact h

theorem batch_failFast_of_some {k : Nat}
    (h : (batch host (config.withFailFast false) false ms).1.methods.findIdx?
      (·.outcome.isAborted) = some k) :
    (batch host (config.withFailFast true) false ms).1.methods =
      (batch host (config.withFailFast false) false ms).1.methods.take (k + 1) ++
        (ms.drop (k + 1)).map (fun m => ⟨m.method, .cancelled⟩) ∧
    (batch host (config.withFailFast true) false ms).2 =
      (batch host (config.withFailFast false) false (ms.take (k + 1))).2 := by
  rw [findIdx?_aborted] at h
  rw [batch_withFailFast, runJobs_of_findIdx? (k := k), batch_withoutFailFast,
    batch_withoutFailFast]
  · exact ⟨by rw [runAll, runAll, List.map_take], rfl⟩
  · exact h

end Bodies

section Failures

variable {index : Nat} {outcomes : List SiteOutcome}

theorem siteFailures_append (outcomes' : List SiteOutcome) :
    siteFailures index (outcomes ++ outcomes') =
      siteFailures index outcomes ++ siteFailures (index + outcomes.length) outcomes' := by
  induction outcomes generalizing index with
  | nil => rfl
  | cons outcome outcomes ih =>
    have hlength : index + (outcome :: outcomes).length = index + 1 + outcomes.length := by
      rw [List.length_cons, Nat.add_right_comm, Nat.add_assoc]
    rw [hlength]
    cases outcome with
    | aborted violation => exact congrArg (⟨index, violation⟩ :: ·) ih
    | checked | cancelled => exact ih

theorem siteFailures_eq_nil :
    siteFailures index outcomes = [] ↔ ∀ outcome ∈ outcomes, outcome.isAborted = false := by
  induction outcomes generalizing index with
  | nil => simp [siteFailures]
  | cons outcome outcomes ih =>
    cases outcome with
    | aborted violation => simp [siteFailures, SiteOutcome.isAborted]
    | checked | cancelled => simp [siteFailures, SiteOutcome.isAborted, ih]

theorem siteFailures_cancelled (left : List InstantiationSite) :
    siteFailures index (left.map fun _ => .cancelled) = [] := by
  rw [siteFailures_eq_nil, List.forall_mem_map]
  exact fun _ _ => rfl

theorem findIdx?_of_siteFailures {failure : SiteFailure} {rest : List SiteFailure}
    (h : siteFailures index outcomes = failure :: rest) :
    ∃ k, failure.index = index + k ∧ outcomes.findIdx? (·.isAborted) = some k ∧
      siteFailures index (outcomes.take (k + 1)) = [failure] := by
  induction outcomes generalizing index with
  | nil => cases h
  | cons outcome outcomes ih =>
    cases outcome with
    | aborted violation =>
      cases h
      exact ⟨0, rfl, rfl, rfl⟩
    | checked | cancelled =>
      have hrest : siteFailures (index + 1) outcomes = failure :: rest := h
      obtain ⟨k, hindex, hfind, hfailures⟩ := ih hrest
      refine ⟨k + 1, by omega, ?_, hfailures⟩
      rw [List.findIdx?_cons]
      exact congrArg (Option.map (· + 1)) hfind

end Failures

def DeclarationReport.ofOutcomes (suppressed : List Nat) (outcomes : List SiteOutcome)
    (declarations : List Declaration) : DeclarationReport :=
  let found := outcomes.flatMap (·.diagnostics) ++ Declaration.validateAll declarations
  let reported := found.filter (·.isReported suppressed)
  { diagnostics := reported
    suppressed := found.length - reported.length
    aborted := siteFailures 0 outcomes
    cancelled := outcomes.countP (·.isCancelled) }

namespace DeclarationReport

variable (suppressed : List Nat) (outcomes outcomes' : List SiteOutcome)
  (declarations : List Declaration)

theorem diagnostics_ofOutcomes_append :
    (ofOutcomes suppressed (outcomes ++ outcomes') declarations).diagnostics =
      (ofOutcomes suppressed outcomes []).diagnostics ++
        (ofOutcomes suppressed outcomes' []).diagnostics ++
        (ofOutcomes suppressed [] declarations).diagnostics := by
  simp [ofOutcomes, Declaration.validateAll]

theorem suppressed_ofOutcomes_append :
    (ofOutcomes suppressed (outcomes ++ outcomes') declarations).suppressed =
      (ofOutcomes suppressed outcomes []).suppressed +
        (ofOutcomes suppressed outcomes' []).suppressed +
        (ofOutcomes suppressed [] declarations).suppressed := by
  have hle (ds : List Diagnostic) : (ds.filter (·.isReported suppressed)).length ≤ ds.length :=
    List.length_filter_le _ _
  have hfirst := hle (outcomes.flatMap (·.diagnostics))
  have hsecond := hle (outcomes'.flatMap (·.diagnostics))
  have hplaced := hle (Declaration.validateAll declarations)
  simp only [ofOutcomes, Declaration.validateAll, List.filterMap_nil, List.append_nil,
    List.flatMap_nil, List.nil_append, List.flatMap_append, List.filter_append,
    List.length_append] at hplaced ⊢
  omega

theorem countP_cancelled (left : List InstantiationSite) :
    (left.map fun _ => SiteOutcome.cancelled).countP (·.isCancelled) = left.length := by
  rw [List.countP_map, List.countP_eq_length]
  exact fun _ _ => rfl

theorem ofOutcomes_cancelled (left : List InstantiationSite) :
    ofOutcomes suppressed (left.map fun _ => .cancelled) [] = { cancelled := left.length } := by
  have hfound : (left.map fun _ => SiteOutcome.cancelled).flatMap (·.diagnostics) = [] := by
    rw [List.flatMap_map, List.flatMap_eq_nil_iff]
    exact fun _ _ => rfl
  rw [ofOutcomes, hfound, siteFailures_cancelled, countP_cancelled]
  rfl

theorem ofOutcomes_stopped (left : List InstantiationSite) :
    ofOutcomes suppressed (outcomes ++ left.map fun _ => .cancelled) declarations =
      { diagnostics := (ofOutcomes suppressed outcomes []).diagnostics ++
          (ofOutcomes suppressed [] declarations).diagnostics
        suppressed := (ofOutcomes suppressed outcomes []).suppressed +
          (ofOutcomes suppressed [] declarations).suppressed
        aborted := siteFailures 0 outcomes
        cancelled := outcomes.countP (·.isCancelled) + left.length } := by
  have hdiagnostics := diagnostics_ofOutcomes_append suppressed outcomes
    (left.map fun _ => .cancelled) declarations
  rw [ofOutcomes_cancelled, List.append_nil] at hdiagnostics
  have hsuppressed := suppressed_ofOutcomes_append suppressed outcomes
    (left.map fun _ => .cancelled) declarations
  rw [ofOutcomes_cancelled, Nat.add_zero] at hsuppressed
  have haborted : siteFailures 0 (outcomes ++ left.map fun _ => .cancelled) =
      siteFailures 0 outcomes := by
    rw [siteFailures_append, siteFailures_cancelled, List.append_nil]
  have hcancelled : (outcomes ++ left.map fun _ => SiteOutcome.cancelled).countP (·.isCancelled) =
      outcomes.countP (·.isCancelled) + left.length := by
    rw [List.countP_append, countP_cancelled]
  rw [← hdiagnostics, ← hsuppressed, ← haborted, ← hcancelled]
  rfl

end DeclarationReport

namespace Declarations

def upTo (input : Declarations) (n : Nat) : Declarations := ⟨input.sites.take n, []⟩

def behind (input : Declarations) (n : Nat) : Declarations := ⟨input.sites.drop n, []⟩

def placed (input : Declarations) : Declarations := ⟨[], input.declarations⟩

end Declarations

section Sites

variable {host : Host} {config : Config} {input : Declarations}

theorem checkDeclarations_withFailFast (failFast : Bool) :
    checkDeclarations host (config.withFailFast failFast) false input =
      (.ofOutcomes config.suppressedCodes
        (runJobs (·.run host) (fun o => failFast && o.isAborted) (fun _ => .cancelled) false
          input.sites).1 input.declarations,
        (runJobs (·.run host) (fun o => failFast && o.isAborted) (fun _ => .cancelled) false
          input.sites).2) := rfl

theorem checkDeclarations_withoutFailFast :
    checkDeclarations host (config.withFailFast false) false input =
      (.ofOutcomes config.suppressedCodes (runAll (·.run host) input.sites).1 input.declarations,
        (runAll (·.run host) input.sites).2) := by
  rw [checkDeclarations_withFailFast, runJobs_eq_runAll fun _ _ => rfl]

theorem checkDeclarations_failFast_of_nil
    (h : (checkDeclarations host (config.withFailFast false) false input).1.aborted = []) :
    checkDeclarations host (config.withFailFast true) false input =
      checkDeclarations host (config.withFailFast false) false input := by
  rw [checkDeclarations_withoutFailFast] at h
  have hnone := siteFailures_eq_nil.1 h
  rw [runAll, List.forall_mem_map] at hnone
  rw [checkDeclarations_withoutFailFast, checkDeclarations_withFailFast, runJobs_eq_runAll]
  exact hnone

theorem countP_cancelled_runAll (sites : List InstantiationSite) :
    (runAll (·.run host) sites).1.countP (·.isCancelled) = 0 := by
  have hrun (site : InstantiationSite) : (site.run host).1.isCancelled = false := by
    simp only [InstantiationSite.run]
    split <;> rfl
  rw [List.countP_eq_zero, runAll, List.forall_mem_map]
  intro site _
  rw [hrun]
  exact Bool.false_ne_true

/-- Without stopping, what is found at the first sites, at the others and about declarations comes
one behind the other. -/
theorem checkDeclarations_split (host : Host) (config : Config) (input : Declarations) (n : Nat) :
    (checkDeclarations host (config.withFailFast false) false input).1.diagnostics =
      (checkDeclarations host (config.withFailFast false) false (input.upTo n)).1.diagnostics ++
      (checkDeclarations host (config.withFailFast false) false (input.behind n)).1.diagnostics ++
      (checkDeclarations host (config.withFailFast false) false input.placed).1.diagnostics ∧
    (checkDeclarations host (config.withFailFast false) false input).1.suppressed =
      (checkDeclarations host (config.withFailFast false) false (input.upTo n)).1.suppressed +
      (checkDeclarations host (config.withFailFast false) false (input.behind n)).1.suppressed +
      (checkDeclarations host (config.withFailFast false) false input.placed).1.suppressed := by
  simp only [checkDeclarations_withoutFailFast]
  rw [← List.take_append_drop n input.sites, runAll_append,
    DeclarationReport.diagnostics_ofOutcomes_append,
    DeclarationReport.suppressed_ofOutcomes_append]
  exact ⟨rfl, rfl⟩

theorem checkDeclarations_failFast_of_cons {failure : SiteFailure} {rest : List SiteFailure}
    (h : (checkDeclarations host (config.withFailFast false) false input).1.aborted =
      failure :: rest) :
    failure.index < input.sites.length ∧
    (checkDeclarations host (config.withFailFast true) false input).1 =
      { diagnostics :=
          (checkDeclarations host (config.withFailFast false) false
            (input.upTo (failure.index + 1))).1.diagnostics ++
          (checkDeclarations host (config.withFailFast false) false input.placed).1.diagnostics
        suppressed :=
          (checkDeclarations host (config.withFailFast false) false
            (input.upTo (failure.index + 1))).1.suppressed +
          (checkDeclarations host (config.withFailFast false) false input.placed).1.suppressed
        aborted := [failure]
        cancelled := input.sites.length - (failure.index + 1) } ∧
    (checkDeclarations host (config.withFailFast true) false input).2 =
      (checkDeclarations host (config.withFailFast false) false
        (input.upTo (failure.index + 1))).2 := by
  simp only [checkDeclarations_withoutFailFast] at h ⊢
  obtain ⟨k, hindex, hfind, hfailures⟩ := findIdx?_of_siteFailures h
  rw [Nat.zero_add] at hindex
  rw [runAll, List.findIdx?_map] at hfind
  obtain ⟨hlt, -⟩ := List.findIdx?_eq_some_iff_getElem.1 hfind
  rw [hindex, checkDeclarations_withFailFast, runJobs_of_findIdx? (k := k)]
  · rw [runAll, ← List.map_take] at hfailures
    rw [DeclarationReport.ofOutcomes_stopped, countP_cancelled_runAll, Nat.zero_add,
      List.length_drop, ← hfailures]
    exact ⟨hlt, rfl, rfl⟩
  · exact hfind

end Sites

/-- Stopping at the first violation, with one worker and no cancellation. Bodies up to the first one
that is aborted have the outcomes that they have without stopping, those behind it are cancelled,
and marked is what a run on the first ones alone marks. With sites it is the same; what is found
about declarations is reported in any case. -/
theorem failFast_stops (host : Host) (config : Config) (ms : List MethodBody)
    (input : Declarations) :
    let full := config.withFailFast false
    let fast := config.withFailFast true
    ((batch host full false ms).1.methods.findIdx? (·.outcome.isAborted) = none →
      batch host fast false ms = batch host full false ms) ∧
    (∀ k, (batch host full false ms).1.methods.findIdx? (·.outcome.isAborted) = some k →
      (batch host fast false ms).1.methods =
        (batch host full false ms).1.methods.take (k + 1) ++
          (ms.drop (k + 1)).map (fun m => ⟨m.method, .cancelled⟩) ∧
      (batch host fast false ms).2 = (batch host full false (ms.take (k + 1))).2) ∧
    ((checkDeclarations host full false input).1.aborted = [] →
      checkDeclarations host fast false input = checkDeclarations host full false input) ∧
    ∀ failure rest, (checkDeclarations host full false input).1.aborted = failure :: rest →
      let head := checkDeclarations host full false (input.upTo (failure.index + 1))
      let tail := checkDeclarations host full false (input.behind (failure.index + 1))
      let placed := checkDeclarations host full false input.placed
      failure.index < input.sites.length ∧
      (checkDeclarations host full false input).1.diagnostics =
        head.1.diagnostics ++ tail.1.diagnostics ++ placed.1.diagnostics ∧
      (checkDeclarations host full false input).1.suppressed =
        head.1.suppressed + tail.1.suppressed + placed.1.suppressed ∧
      (checkDeclarations host fast false input).1 =
        { diagnostics := head.1.diagnostics ++ placed.1.diagnostics
          suppressed := head.1.suppressed + placed.1.suppressed
          aborted := [failure]
          cancelled := input.sites.length - (failure.index + 1) } ∧
      (checkDeclarations host fast false input).2 = head.2 := by
  intro full fast
  refine ⟨batch_failFast_of_none, fun k => batch_failFast_of_some,
    checkDeclarations_failFast_of_nil, ?_⟩
  intro failure rest h head tail placed
  obtain ⟨hdiagnostics, hsuppressed⟩ :=
    checkDeclarations_split host config input (failure.index + 1)
  obtain ⟨hindex, hreport, hmarks⟩ := checkDeclarations_failFast_of_cons h
  exact ⟨hindex, hdiagnostics, hsuppressed, hreport, hmarks⟩

def keepGenericTable : SymbolTable :=
  { MarkedTable.keepTable.table with
    generics := .ofList
      [("Keep`1", [{ name := "T", capabilities := Kind.publicMethods.set }]),
        ("Both`2", [{ name := "T", capabilities := Kind.publicMethods.set }, { name := "U" }])] }

def keepSites : Declarations where
  sites :=
    [⟨.type "Cache", ⟨"Keep`1", [.parameter ⟨"Cache", "V"⟩]⟩, ⟨1, 1⟩⟩,
      ⟨.type "Cache", ⟨"Both`2", [.named "Widget", .constructed "Keep`1" []]⟩, ⟨2, 1⟩⟩,
      ⟨.member "Fill()", ⟨"Keep`1", []⟩, ⟨3, 1⟩⟩,
      ⟨.member "Fill()", ⟨"Both`2", [.parameter ⟨"Fill()", "W"⟩, .named "Gadget"]⟩, ⟨4, 1⟩⟩]
  declarations := [⟨"Cache.size", .field, Kind.publicMethods.set, false, ⟨5, 1⟩⟩]

theorem failFast_stops_keepers :
    let host := keepGenericTable.host
    let full := ({} : Config).withFailFast false
    let fast := ({} : Config).withFailFast true
    (batch host full false MarkedTable.keepers).1.methods.findIdx? (·.outcome.isAborted) = some 1 ∧
    (batch host fast false MarkedTable.keepers).1.methods =
      (batch host full false MarkedTable.keepers).1.methods.take 2 ++
        [⟨"Pass(Type)", .cancelled⟩] ∧
    (batch host fast false MarkedTable.keepers).2 =
      (batch host full false (MarkedTable.keepers.take 2)).2 ∧
    (checkDeclarations host full false keepSites).1.aborted =
      [⟨1, .arityMismatch "Keep`1" 1 0⟩, ⟨2, .arityMismatch "Keep`1" 1 0⟩] ∧
    (checkDeclarations host fast false keepSites).1.aborted =
      [⟨1, .arityMismatch "Keep`1" 1 0⟩] ∧
    (checkDeclarations host fast false keepSites).2 =
      (checkDeclarations host full false (keepSites.upTo 2)).2 ∧
    batch host fast false [] = batch host full false [] ∧
    checkDeclarations host fast false keepSites.placed =
      checkDeclarations host full false keepSites.placed := by
  intro host full fast
  obtain ⟨-, hbodies, -, hsites⟩ :=
    failFast_stops host {} MarkedTable.keepers keepSites
  obtain ⟨hnone, -, hnil, -⟩ := failFast_stops host {} [] keepSites.placed
  have hfirst : (batch host full false MarkedTable.keepers).1.methods.findIdx?
      (·.outcome.isAborted) = some 1 := by
    decide +kernel
  have haborted : (checkDeclarations host full false keepSites).1.aborted =
      [⟨1, .arityMismatch "Keep`1" 1 0⟩, ⟨2, .arityMismatch "Keep`1" 1 0⟩] := by
    decide +kernel
  obtain ⟨hmethods, hmarks⟩ := hbodies 1 hfirst
  obtain ⟨-, -, -, hreport, hmarked⟩ := hsites _ _ haborted
  exact ⟨hfirst, hmethods, hmarks, haborted, by rw [hreport], hmarked, hnone rfl, hnil rfl⟩

end CapabilityFlow
