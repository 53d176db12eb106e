/-
  The phases of a build.

  A build that ends well has normalized the graph, closed the equality requirement, resolved all
  roots and found no inline cycle without a box.  `Phases` names the graph after the first of these
  and the session after the third, and `Concluded` adds the reports and the remarks; `run_eq_ok`
  says that a build ends well exactly if there are such phases.

  Each phase keeps the graph well formed (`Phases.wellFormed`), so what is known about resolutions
  holds for the graph of the build, and its table is sound (`Phases.table_sound`).
-/
import SchemaSymbols.Build
import SchemaSymbols.Proofs.Graph.EqualityClosure
import SchemaSymbols.Proofs.Normalization.Ownership
import SchemaSymbols.Proofs.Resolution.Completeness

namespace SchemaSymbols

variable {g : Graph} {settings : Settings} {b : Build} {normalized : Graph} {session : Session}

namespace Build

/-- A build resolves all roots in a new session. -/
theorem resolveGraph_eq_ok {r : Resolver} :
    resolveGraph r = .ok session ↔ r.resolveAll {} = .ok () session := by
  rw [resolveGraph]
  cases r.resolveAll {} with
  | ok u s =>
    constructor
    · rintro ⟨⟩
      rfl
    · rintro ⟨⟩
      rfl
  | error e s =>
    constructor
    · rintro ⟨⟩
    · rintro ⟨⟩

/-- What a build that ended well went through. -/
structure Phases (g : Graph) (settings : Settings) (b : Build) (normalized : Graph)
    (session : Session) : Prop where
  normalization : g.normalize settings.synthetic = .ok (normalized, b.normalization)
  closure : normalized.closeEquality = .ok (b.graph, b.closure)
  resolution : (settings.resolver b.graph).resolveAll {} = .ok () session
  table : b.table = session.table

/-- What it leaves: no inline cycle without a box, and a result that is put together from the
phases. -/
structure Concluded (g : Graph) (settings : Settings) (b : Build) (normalized : Graph)
    (session : Session) : Prop where
  unbroken : InlineCycle.unbroken b.graph (isBroken b.table) = []
  profile : b.profile = settings.profile
  cycles : b.cycles = InlineCycle.all b.graph
  diagnostics : b.diagnostics =
    normalizationRemarks g normalized b.normalization ++ session.diagnostics

/-- A build ends well if all phases do, and its result is determined by them. -/
theorem run_eq_ok : run g settings = .ok b ↔ ∃ normalized session,
    Phases g settings b normalized session ∧ Concluded g settings b normalized session := by
  constructor
  · intro h
    rw [run] at h
    obtain ⟨⟨normalized, normalization⟩, hnormalize, h⟩ := bind_eq_ok.1 h
    obtain ⟨⟨graph, closure⟩, hclose, h⟩ := bind_eq_ok.1 h
    obtain ⟨session, hresolve, h⟩ := bind_eq_ok.1 h
    split at h
    · cases h
    · rename_i hunbroken
      cases h
      exact ⟨normalized, session, ⟨hnormalize, hclose, resolveGraph_eq_ok.1 hresolve, rfl⟩,
        ⟨hunbroken, rfl, rfl, rfl⟩⟩
  · rintro ⟨normalized, session, phases, concluded⟩
    obtain ⟨graph, profile, table, cycles, normalization, closure, diagnostics⟩ := b
    obtain rfl : table = session.table := phases.table
    obtain rfl : profile = settings.profile := concluded.profile
    obtain rfl : cycles = InlineCycle.all graph := concluded.cycles
    obtain rfl : diagnostics =
        normalizationRemarks g normalized normalization ++ session.diagnostics :=
      concluded.diagnostics
    have hunbroken : InlineCycle.unbroken graph (isBroken session.table) = [] := concluded.unbroken
    rw [run]
    refine bind_eq_ok.2 ⟨_, phases.normalization, bind_eq_ok.2 ⟨_, phases.closure, ?_⟩⟩
    refine bind_eq_ok.2 ⟨session, resolveGraph_eq_ok.2 phases.resolution, ?_⟩
    simp only [hunbroken]
    rfl

theorem exists_phases (h : run g settings = .ok b) :
    ∃ normalized session, Phases g settings b normalized session := by
  obtain ⟨normalized, session, phases, -⟩ := run_eq_ok.1 h
  exact ⟨normalized, session, phases⟩

theorem Phases.wellFormed (phases : Phases g settings b normalized session) (wf : g.WellFormed) :
    b.graph.WellFormed := by
  obtain ⟨closed, report, hclose, wf', -⟩ := (wf.normalize phases.normalization).exists_closes
  rw [phases.closure] at hclose
  cases hclose
  exact wf'

/-- The table of a build is one of shapes that are exposed, and has all of them. -/
theorem Phases.table_sound (phases : Phases g settings b normalized session) (wf : g.WellFormed) :
    TableSound (settings.resolver b.graph) b.graph.Exposed b.table ∧
      ∀ id, b.graph.Exposed id → b.table.contains id = true := by
  have wf' : (settings.resolver b.graph).graph.WellFormed := phases.wellFormed wf
  have ends := resolveAll_ends wf' wf'.closed_exposed .new ⟨rfl, rfl⟩ fun id hid =>
    (Resolver.mem_roots wf').1 hid
  obtain ⟨resolved, -⟩ := ends.of_ok phases.resolution
  rw [phases.table]
  exact ⟨(resolved.moves.sound wf'.closed_exposed .new).table,
    fun id hid => (resolveAll_exact wf' phases.resolution id).1.2 hid⟩

end Build

end SchemaSymbols
