import CapabilityFlow.Proofs.FailFast

namespace CapabilityFlow

namespace InstantiationSite

variable {site : InstantiationSite} {host : Host}

def found (site : InstantiationSite) (host : Host) : List Diagnostic :=
  match (site.analyze host).result with
  | .ok diagnostics => diagnostics
  | .error _ => []

theorem found_of_error {v : Violation} (h : (site.analyze host).result = .error v) :
    site.found host = [] := by
  rw [found, h]

theorem found_of_ok {ds : List Diagnostic} (h : (site.analyze host).result = .ok ds) :
    site.found host = ds := by
  rw [found, h]

theorem found_of_exempt (h : site.owner.isExempt host = true) : site.found host = [] := by
  have hanalyze : site.analyze host = ⟨.ok [], []⟩ := if_pos h
  exact found_of_ok (by rw [hanalyze])

theorem run_of_error {v : Violation} (h : (site.analyze host).result = .error v) :
    site.run host = (.aborted v, (site.analyze host).marks) := by
  simp only [run, h]

theorem run_of_ok {ds : List Diagnostic} (h : (site.analyze host).result = .ok ds) :
    site.run host = (.checked ds, (site.analyze host).marks) := by
  simp only [run, h]

theorem diagnostics_run : (site.run host).1.diagnostics = site.found host := by
  cases h : (site.analyze host).result with
  | error v => rw [run_of_error h, found_of_error h, SiteOutcome.diagnostics]
  | ok ds => rw [run_of_ok h, found_of_ok h, SiteOutcome.diagnostics]

theorem run_eq_aborted {v : Violation} :
    (site.run host).1 = .aborted v ↔ (site.analyze host).result = .error v := by
  cases h : (site.analyze host).result with
  | error v' => rw [run_of_error h, SiteOutcome.aborted.injEq, Except.error.injEq]
  | ok ds => simp [run_of_ok h]

end InstantiationSite

namespace Declaration

/-- Whether an annotation stands where neither a type nor the name of one is held. -/
def isMisplaced (d : Declaration) : Bool := d.capabilities ≠ ∅ && !d.holdsType

def misplacement (d : Declaration) : Diagnostic :=
  ⟨.invalidPlacement d.site.placement, d.site.arguments d.name, d.location⟩

theorem misplaced?_eq (d : Declaration) :
    d.misplaced? = if d.isMisplaced then some d.misplacement else none := by
  rw [misplaced?, ← misplacement, isMisplaced]
  by_cases hnone : d.capabilities = ∅ <;> cases d.holdsType <;> simp [hnone]

/-- One diagnostic for each misplaced annotation, in the order of the declarations. -/
theorem validateAll_eq (ds : List Declaration) :
    validateAll ds = (ds.filter (·.isMisplaced)).map misplacement := by
  induction ds with
  | nil => rfl
  | cons d ds ih =>
    rw [validateAll, List.filterMap_cons, misplaced?_eq, ← validateAll, ih, List.filter_cons]
    cases d.isMisplaced <;> rfl

end Declaration

section Failures

variable {index i : Nat} {v : Violation} {outcomes : List SiteOutcome}

theorem mem_siteFailures : ⟨i, v⟩ ∈ siteFailures index outcomes ↔
    ∃ k, i = index + k ∧ outcomes[k]? = some (.aborted v) := by
  induction outcomes generalizing index with
  | nil => simp [siteFailures]
  | cons outcome outcomes ih =>
    have hrest : (∃ k, i = index + k ∧ (outcome :: outcomes)[k]? = some (.aborted v)) ↔
        (i = index ∧ outcome = .aborted v) ∨
          ∃ k, i = index + 1 + k ∧ outcomes[k]? = some (.aborted v) := by
      constructor
      · rintro ⟨k, rfl, hk⟩
        cases k with
        | zero => exact .inl ⟨rfl, Option.some.inj hk⟩
        | succ k => exact .inr ⟨k, by omega, hk⟩
      · rintro (⟨rfl, rfl⟩ | ⟨k, rfl, hk⟩)
        · exact ⟨0, rfl, rfl⟩
        · exact ⟨k + 1, by omega, hk⟩
    rw [hrest, ← ih]
    cases outcome with
    | aborted violation => simp [siteFailures, eq_comm]
    | checked | cancelled => simp [siteFailures]

theorem le_of_mem_siteFailures {failure : SiteFailure}
    (h : failure ∈ siteFailures index outcomes) : index ≤ failure.index := by
  obtain ⟨k, hk, -⟩ := mem_siteFailures.1 h
  omega

theorem pairwise_siteFailures :
    (siteFailures index outcomes).Pairwise (fun a b => a.index < b.index) := by
  induction outcomes generalizing index with
  | nil => exact .nil
  | cons outcome outcomes ih =>
    cases outcome with
    | aborted violation =>
      apply List.Pairwise.cons
      · intro failure h
        exact le_of_mem_siteFailures h
      · exact ih
    | checked | cancelled => exact ih

end Failures

theorem flatMap_eraseIdx {α β : Type} {f : α → List β} {xs : List α} {i : Nat} {x : α}
    (hx : xs[i]? = some x) (hf : f x = []) : (xs.eraseIdx i).flatMap f = xs.flatMap f := by
  induction xs generalizing i with
  | nil => rfl
  | cons y ys ih =>
    cases i with
    | zero =>
      cases hx
      rw [List.eraseIdx_zero, List.tail_cons, List.flatMap_cons, hf, List.nil_append]
    | succ i => rw [List.eraseIdx_cons_succ, List.flatMap_cons, List.flatMap_cons, ih hx]

namespace Config

variable {config : Config}

theorem filter_isReported (hs : config.suppressed = []) (ds : List Diagnostic) :
    ds.filter (·.isReported config.suppressedCodes) = ds := by
  rw [suppressedCodes, hs, List.filter_eq_self]
  exact fun _ _ => rfl

end Config

namespace MarkedTable

variable {t : MarkedTable} {config : Config} {input : Declarations} {report : DeclarationReport}
  {marked : MarkedTypes}

def checkDeclarations (t : MarkedTable) (config : Config) (input : Declarations) :
    DeclarationReport × MarkedTypes :=
  let (report, marks) := CapabilityFlow.checkDeclarations t.host config false input
  (report, t.marked.insertAll marks)

/-- Workers may end the check of sites and declarations with the report and the types marked. -/
def DeclarationEnds (t : MarkedTable) (config : Config) (input : Declarations)
    (report : DeclarationReport) (marked : MarkedTypes) : Prop :=
  ∃ outcomes,
    Workers.Ends (fun host (site : InstantiationSite) => site.run host)
      (fun o => config.failFast && o.isAborted) (fun _ => .cancelled) t input.sites
      outcomes marked ∧
    report = .ofOutcomes config.suppressedCodes outcomes input.declarations

/-- The report is what the sites come to alone, one after the other, and then one diagnostic for
each misplaced annotation; the sites that fail alone are listed once, by their positions. -/
structure Reports (t : MarkedTable) (input : Declarations) (report : DeclarationReport) : Prop where
  diagnostics_eq : report.diagnostics = input.sites.flatMap (·.found t.host) ++
    (input.declarations.filter (·.isMisplaced)).map (·.misplacement)
  suppressed_eq : report.suppressed = 0
  cancelled_eq : report.cancelled = 0
  increasing : report.aborted.Pairwise (fun a b => a.index < b.index)
  mem_aborted (i : Nat) (v : Violation) : ⟨i, v⟩ ∈ report.aborted ↔
    ∃ site, input.sites[i]? = some site ∧ (site.analyze t.host).result = .error v

theorem declarationEnds_checkDeclarations : t.DeclarationEnds config input
    (t.checkDeclarations config input).1 (t.checkDeclarations config input).2 :=
  ⟨_, Workers.ends_runJobs t input.sites, rfl⟩

theorem DeclarationEnds.eq_runAll (h : t.DeclarationEnds config input report marked)
    (hc : config.failFast = false) :
    report = .ofOutcomes config.suppressedCodes (runAll (·.run t.host) input.sites).1
      input.declarations ∧
    ∀ k, k ∈ marked.toList ↔
      k ∈ t.marked.toList ∨ k ∈ (runAll (·.run t.host) input.sites).2 := by
  obtain ⟨outcomes, hends, rfl⟩ := h
  have hnever (o : SiteOutcome) : (config.failFast && o.isAborted) = false := by
    rw [hc, Bool.false_and]
  obtain ⟨rfl, hmarked⟩ := hends.eq_runAll hnever
  exact ⟨rfl, hmarked⟩

theorem DeclarationEnds.reports (h : t.DeclarationEnds config input report marked)
    (hc : config.failFast = false) (hs : config.suppressed = []) : t.Reports input report := by
  obtain ⟨rfl, -⟩ := h.eq_runAll hc
  have hall := Config.filter_isReported hs
    ((runAll (·.run t.host) input.sites).1.flatMap (·.diagnostics) ++
      Declaration.validateAll input.declarations)
  constructor
  case diagnostics_eq =>
    rw [DeclarationReport.ofOutcomes, hall, Declaration.validateAll_eq, runAll, List.flatMap_map]
    simp only [InstantiationSite.diagnostics_run]
  case suppressed_eq =>
    rw [DeclarationReport.ofOutcomes, hall]
    exact Nat.sub_self _
  case cancelled_eq => exact countP_cancelled_runAll input.sites
  case increasing => exact pairwise_siteFailures
  case mem_aborted =>
    intro i v
    simp only [DeclarationReport.ofOutcomes, mem_siteFailures, Nat.zero_add, exists_eq_left',
      runAll, List.getElem?_map, Option.map_eq_some_iff, InstantiationSite.run_eq_aborted]

theorem Reports.found_eq_nil (h : t.Reports input report) {failure : SiteFailure}
    (hf : failure ∈ report.aborted) :
    ∃ site, input.sites[failure.index]? = some site ∧ site.found t.host = [] := by
  obtain ⟨site, hsite, herror⟩ := (h.mem_aborted failure.index failure.violation).1 hf
  exact ⟨site, hsite, InstantiationSite.found_of_error herror⟩

/-- Sites and declarations are reported completely, and a failure stays with its site: however the
workers take turns, the report is that of the sites alone, with nothing from a site that fails or
belongs to an exempt member; and without a site that fails, all diagnostics stay as they are. -/
theorem declarations_reported (hc : config.failFast = false) (hs : config.suppressed = [])
    (t : MarkedTable) (input : Declarations) :
    t.DeclarationEnds config input (t.checkDeclarations config input).1
      (t.checkDeclarations config input).2 ∧
    (∀ site ∈ input.sites, site.owner.isExempt t.host = true ∨
      (∃ v, (site.analyze t.host).result = .error v) → site.found t.host = []) ∧
    ∀ report marked, t.DeclarationEnds config input report marked →
      t.Reports input report ∧
      ∀ failure ∈ report.aborted, ∀ report' marked',
        t.DeclarationEnds config { input with sites := input.sites.eraseIdx failure.index }
          report' marked' → report'.diagnostics = report.diagnostics := by
  apply And.intro declarationEnds_checkDeclarations
  apply And.intro
  · rintro site - (hexempt | ⟨v, herror⟩)
    · exact InstantiationSite.found_of_exempt hexempt
    · exact InstantiationSite.found_of_error herror
  · intro report marked h
    have hreports := h.reports hc hs
    apply And.intro hreports
    intro failure hfailure report' marked' h'
    obtain ⟨site, hsite, hnothing⟩ := hreports.found_eq_nil hfailure
    rw [(h'.reports hc hs).diagnostics_eq, hreports.diagnostics_eq, flatMap_eraseIdx hsite hnothing]

def fillSites : Declarations where
  sites :=
    [⟨.type "Cache", ⟨"Keep`1", [.parameter ⟨"Cache", "V"⟩]⟩, ⟨1, 1⟩⟩,
      ⟨.type "Cache", ⟨"Both`2", [.parameter ⟨"Cache", "V"⟩, .constructed "Keep`1" []]⟩, ⟨2, 1⟩⟩,
      ⟨.member "Skip()", ⟨"Keep`1", [.parameter ⟨"Cache", "V"⟩]⟩, ⟨3, 1⟩⟩,
      ⟨.member "Fill()", ⟨"Both`2", [.parameter ⟨"Fill()", "W"⟩, .named "Gadget"]⟩, ⟨4, 1⟩⟩]
  declarations :=
    [⟨"Cache.size", .field, Kind.publicMethods.set, false, ⟨5, 1⟩⟩,
      ⟨"Cache.kind", .field, Kind.publicMethods.set, true, ⟨6, 1⟩⟩]

theorem declarations_reported_fillSites :
    let t : MarkedTable := ⟨keepGenericTable, ∅⟩
    (t.host.checkInstantiation ⟨2, 1⟩
      ⟨"Both`2", [.parameter ⟨"Cache", "V"⟩, .constructed "Keep`1" []]⟩).diagnostics.length = 1 ∧
    ((t.checkDeclarations {} fillSites).1.diagnostics.map (·.location.line.toNat)) = [1, 4, 5] ∧
    t.Reports fillSites (t.checkDeclarations {} fillSites).1 ∧
    ⟨1, .arityMismatch "Keep`1" 1 0⟩ ∈ (t.checkDeclarations {} fillSites).1.aborted ∧
    (t.checkDeclarations {} ⟨fillSites.sites.eraseIdx 1, fillSites.declarations⟩).1.diagnostics =
      (t.checkDeclarations {} fillSites).1.diagnostics := by
  intro t
  have hc : ({} : Config).failFast = false := rfl
  have hs : ({} : Config).suppressed = [] := rfl
  obtain ⟨hends, -, hall⟩ := declarations_reported hc hs t fillSites
  obtain ⟨hreports, herase⟩ := hall _ _ hends
  have hfailure : ⟨1, .arityMismatch "Keep`1" 1 0⟩ ∈
      (t.checkDeclarations {} fillSites).1.aborted := by
    decide +kernel
  have hwithout := herase _ hfailure _ _ declarationEnds_checkDeclarations
  exact ⟨by decide +kernel, by decide +kernel, hreports, hfailure, hwithout⟩

end MarkedTable

end CapabilityFlow
