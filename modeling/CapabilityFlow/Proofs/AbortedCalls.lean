import CapabilityFlow.Proofs.EnforcedArguments
import CapabilityFlow.Proofs.FailFast
import CapabilityFlow.Proofs.PathDecomposition
import CapabilityFlow.Proofs.VisitedBlocks

namespace CapabilityFlow

inductive Call where
  | analyze (m : MethodBody)
  | checkSite (site : InstantiationSite)
  | validate (declarations : List Declaration)

theorem Check.result_verdict_eq_error {α : Type} {c : Check α} {v : Violation} :
    c.verdict.result = .error v ↔ c.outcome = .error v := by
  rw [verdict]
  cases c.outcome <;> simp [Except.map]

theorem MethodBody.mem_marks_analyze {m : MethodBody} {host : Host} {options : Options} {k : Mark} :
    k ∈ (m.analyze host options).marks ↔
      m.exemption? host options = none ∧ m.Emits host (.mark k) := by
  cases hx : m.exemption? host options with
  | some reason =>
    rw [analyze_of_exempt hx]
    refine iff_of_false List.not_mem_nil ?_
    rintro ⟨hnone, -⟩
    cases hnone
  | none =>
    rw [analyze_of_not_exempt hx, ← mem_pass_iff_emits, ← mem_marks]
    exact (and_iff_right rfl).symm

theorem InstantiationSite.mem_marks_analyze {site : InstantiationSite} {host : Host} {k : Mark} :
    k ∈ (site.analyze host).marks ↔ site.owner.isExempt host = false ∧
      .mark k ∈ (host.checkInstantiation site.location site.instantiation).events := by
  rw [analyze, ← MethodBody.mem_marks]
  cases site.owner.isExempt host with
  | true =>
    refine iff_of_false List.not_mem_nil ?_
    rintro ⟨hchecked, -⟩
    cases hchecked
  | false => exact (and_iff_right rfl).symm

namespace Call

variable {host : Host} {options : Options} {c : Call} {k : Mark} {v : Violation}

def verdict (host : Host) (options : Options) : Call → Verdict
  | analyze m => m.analyze host options
  | checkSite site => site.analyze host
  | validate declarations => ⟨.ok (Declaration.validateAll declarations), []⟩

/-- A call makes a mark, and if a violation ends the call, then before it. A body does so by the
code of the blocks that its analysis comes to, and a site by the arguments that are enforced. -/
inductive Makes (host : Host) (options : Options) : Call → Mark → Prop
  | body {m : MethodBody} {k : Mark} :
    m.exemption? host options = none → m.Emits host (.mark k) → Makes host options (.analyze m) k
  | argument {site : InstantiationSite} {parameter : GenericParameter} {argument : TypeArgument}
      {k : Mark} :
    site.owner.isExempt host = false → site.instantiation.Enforces host parameter argument →
    host.argumentValue? argument = some (.type k.type) →
    k.required = (host.genericRequirement parameter).required → k.required ≠ ∅ →
    Makes host options (.checkSite site) k

def Violates (host : Host) : Call → Prop
  | analyze m => (∃ v, m.graph.validate = .error v) ∨ m.ReachesViolation host
  | checkSite site => site.instantiation.ArityFault host
  | validate _ => False

theorem mem_marks_iff_makes : k ∈ (c.verdict host options).marks ↔ c.Makes host options k := by
  cases c with
  | analyze m =>
    rw [verdict, MethodBody.mem_marks_analyze]
    constructor
    · rintro ⟨hx, hemits⟩
      exact .body hx hemits
    · rintro (⟨hx, hemits⟩ | -)
      exact ⟨hx, hemits⟩
  | checkSite site =>
    simp only [verdict, InstantiationSite.mem_marks_analyze, Host.mem_checkInstantiation,
      Host.mark_mem_enforceArgument]
    constructor
    · rintro ⟨hx, parameter, argument, henforces, htype, hrequired, hr⟩
      exact .argument hx henforces htype hrequired hr
    · rintro (- | ⟨hx, henforces, htype, hrequired, hr⟩)
      exact ⟨hx, _, _, henforces, htype, hrequired, hr⟩
  | validate declarations =>
    refine iff_of_false List.not_mem_nil ?_
    rintro ⟨⟩

theorem violates_of_error (h : (c.verdict host options).result = .error v) : c.Violates host := by
  cases c with
  | analyze m =>
    obtain ⟨hiff, -⟩ := m.analyze_error_iff host options
    exact (hiff.1 ⟨v, h⟩).2
  | checkSite site =>
    have herror :
        (host.checkInstantiation site.location site.instantiation).outcome = .error v := by
      rw [verdict, InstantiationSite.analyze] at h
      split at h
      · cases h
      · exact Check.result_verdict_eq_error.1 h
    exact not_not.1 (mt Host.checkInstantiation_succeeds.2 (Check.exists_error_iff.1 ⟨v, herror⟩))
  | validate declarations => cases h

end Call

namespace MarkedTable

variable {t : MarkedTable} {options : Options} {c : Call} {v : Violation}

def answer (t : MarkedTable) (options : Options) (c : Call) : Except Violation (List Diagnostic) :=
  (c.verdict t.host options).result

def after (t : MarkedTable) (options : Options) (c : Call) : MarkedTable :=
  t.markAll (c.verdict t.host options).marks

@[simp] theorem table_after : (t.after options c).table = t.table := rfl

@[simp] theorem host_after : (t.after options c).host = t.host := rfl

theorem prefix_after : t.marked.toList <+: (t.after options c).marked.toList :=
  t.marked.prefix_insertAll _

theorem mem_marked_after {k : Mark} : k ∈ (t.after options c).marked.toList ↔
    k ∈ t.marked.toList ∨ c.Makes t.host options k := by
  rw [← Call.mem_marks_iff_makes]
  exact MarkedTypes.mem_insertAll

theorem marked_after_eq_self_iff : (t.after options c).marked = t.marked ↔
    ∀ k, c.Makes t.host options k → k ∈ t.marked.toList := by
  simp only [← Call.mem_marks_iff_makes]
  exact MarkedTypes.insertAll_eq_self_iff

/-- A call that a violation ends changes no declaration and takes no mark away; the marks that it
makes before the violation stay, behind those made before the call, and it makes no others. So the
marked types are what they were exactly if all these were marked before. -/
theorem aborted_keeps_marks (h : t.answer options c = .error v) :
    c.Violates t.host ∧
    (t.after options c).table = t.table ∧
    t.marked.toList <+: (t.after options c).marked.toList ∧
    (∀ k, k ∈ (t.after options c).marked.toList ↔
      k ∈ t.marked.toList ∨ c.Makes t.host options k) ∧
    ((t.after options c).marked = t.marked ↔
      ∀ k, c.Makes t.host options k → k ∈ t.marked.toList) :=
  ⟨Call.violates_of_error h, table_after, prefix_after, fun _ => mem_marked_after,
    marked_after_eq_self_iff⟩

def failing : Call := .analyze (keeper "Fail(Type)" "Gadget" (.parameter 1))

def misfit : Call :=
  .checkSite ⟨.type "Cache", ⟨"Both`2", [.named "Widget", .constructed "Keep`1" []]⟩, ⟨2, 1⟩⟩

/-- A body that reads a parameter which it does not have, and a site with an argument that does not
fit, leave a mark behind, so that a call which a violation ends may change what is marked. -/
theorem aborted_leaves_marks :
    let t : MarkedTable := { keepTable with table := keepGenericTable }
    t.answer {} failing = .error (.parameterOutOfRange "Fail(Type)" 1 1) ∧
    (t.after {} failing).marked.toList =
      t.marked.toList ++ [⟨"Gadget", Kind.publicMethods.set⟩] ∧
    t.answer {} misfit = .error (.arityMismatch "Keep`1" 1 0) ∧
    (t.after {} misfit).marked.toList =
      t.marked.toList ++ [⟨"Widget", Kind.publicMethods.set⟩] ∧
    ¬ ∀ (t : MarkedTable) (options : Options) (c : Call) (v : Violation),
      t.answer options c = .error v → (t.after options c).marked = t.marked := by
  intro t
  have hanswer : t.answer {} failing = .error (.parameterOutOfRange "Fail(Type)" 1 1) := by
    decide +kernel
  have hmarked : (t.after {} failing).marked.toList =
      t.marked.toList ++ [⟨"Gadget", Kind.publicMethods.set⟩] := by
    decide +kernel
  refine ⟨hanswer, hmarked, by decide +kernel, by decide +kernel, ?_⟩
  intro hall
  rw [hall t {} failing _ hanswer] at hmarked
  exact absurd hmarked (by decide +kernel)

theorem aborted_keeps_marks_failing :
    let t : MarkedTable := { keepTable with table := keepGenericTable }
    failing.Violates t.host ∧ failing.Makes t.host {} ⟨"Gadget", Kind.publicMethods.set⟩ ∧
    t.marked.toList <+: (t.after {} failing).marked.toList ∧
    misfit.Violates t.host ∧ misfit.Makes t.host {} ⟨"Widget", Kind.publicMethods.set⟩ := by
  intro t
  have hfailing : t.answer {} failing = .error (.parameterOutOfRange "Fail(Type)" 1 1) := by
    decide +kernel
  have hmisfit : t.answer {} misfit = .error (.arityMismatch "Keep`1" 1 0) := by
    decide +kernel
  obtain ⟨hviolates, -, hprefix, hmem, -⟩ := aborted_keeps_marks hfailing
  obtain ⟨hviolates', -, -, hmem', -⟩ := aborted_keeps_marks hmisfit
  have hgadget := (hmem ⟨"Gadget", Kind.publicMethods.set⟩).1 (by decide +kernel)
  have hwidget := (hmem' ⟨"Widget", Kind.publicMethods.set⟩).1 (by decide +kernel)
  exact ⟨hviolates, hgadget.resolve_left (by decide +kernel), hprefix, hviolates',
    hwidget.resolve_left (by decide +kernel)⟩

end MarkedTable

end CapabilityFlow
