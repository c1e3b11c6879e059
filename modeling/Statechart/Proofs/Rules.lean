import Statechart.Proofs.Checkpoints
import Statechart.Validation

/-!
# What the rules find

Whether a region, a vertex or a transition breaks a rule is said by what it is and by what names it as its parent, its
owner or its source. The violations of a model that has been built are just these breaches, each of them once, regions
first, then vertices, then transitions.
-/

namespace Statechart

variable {μ δ σ : Type}

/-! ## Subjects -/

inductive Subject where
  | region (id : RegionId)
  | vertex (id : VertexId)
  | transition (id : TransitionId)
deriving DecidableEq

/-- Regions come first, then vertices, then transitions, and the older ones first. -/
def Subject.place : Subject → Nat × Nat
  | .region r => (0, r.index)
  | .vertex v => (1, v.index)
  | .transition t => (2, t.index)

def Subject.Before (s s' : Subject) : Prop :=
  s.place.1 < s'.place.1 ∨ s.place.1 = s'.place.1 ∧ s.place.2 < s'.place.2

theorem Subject.Before.ne {s s' : Subject} (hb : s.Before s') : s ≠ s' := by
  rintro rfl
  rcases hb with hlt | ⟨_, hlt⟩ <;> exact absurd hlt (lt_irrefl _)

namespace Model

/-! ## Breaches -/

/-- `u` owns the region of `v`, or that of a state above `v`. -/
inductive Over (m : Model μ δ) (u : VertexId) : VertexId → Prop
  | owner {v : VertexId} {r : RegionId} (hv : m.parent? v = some r) (hr : m.owner? r = some u) : Over m u v
  | up {v o : VertexId} {r : RegionId} (hv : m.parent? v = some r) (hr : m.owner? r = some o) (ho : Over m u o) :
      Over m u v

section
variable (m : Model μ δ)

def content? (v : VertexId) : Option (State μ δ) := (m.vertex? v).bind (·.state?)

def initialsIn (r : RegionId) : List VertexId := m.vertexIds.filter fun v => m.parent? v = some r && m.isInitial v

def leaving (v : VertexId) : List TransitionId := m.transitionIds.filter fun t => m.source? t = some v

def elseLeaving (v : VertexId) : List TransitionId := (m.leaving v).filter m.isElse

def defaultsOf (v : VertexId) : List RegionId :=
  m.regionIds.filter fun r => m.owner? r = some v && (m.region? r).any (·.name == defaultRegionName)

def IsGuarded (t : TransitionId) : Prop :=
  ∃ record, m.transition? t = some record ∧ (record.guard = .completion ∨ ∃ holds, record.guard = .when holds)

def Breaks : Subject → Fault → Prop
  | .region r, .multipleInitials count =>
    (m.region? r).isSome = true ∧ count = (m.initialsIn r).length ∧ 2 ≤ count
  | .vertex v, .noBranches kind => m.kind? v = some kind ∧ kind.isBranch = true ∧ m.leaving v = []
  | .vertex v, .multipleElse kind count =>
    m.kind? v = some kind ∧ kind.isBranch = true ∧ count = (m.elseLeaving v).length ∧ 2 ≤ count
  | .vertex v, .unexpectedElse kind => m.kind? v = some kind ∧ kind.isBranch = false ∧ m.elseLeaving v ≠ []
  | .vertex v, .initialOutgoing kind count =>
    m.kind? v = some kind ∧ kind.isInitial = true ∧ count = (m.leaving v).length ∧ count ≠ 1
  | .vertex v, .guardedInitial kind =>
    m.kind? v = some kind ∧ kind.isInitial = true ∧ ∃ t ∈ m.leaving v, m.IsGuarded t
  | .vertex v, .duplicateDefaultRegion count =>
    (m.content? v).isSome = true ∧ count = (m.defaultsOf v).length ∧ 2 ≤ count
  | .vertex v, .finalWithOutgoing => ∃ content ∈ m.content? v, content.markedFinal = true ∧ m.leaving v ≠ []
  | .vertex v, .finalWithRegions =>
    ∃ content ∈ m.content? v, content.markedFinal = true ∧ ∃ r, m.owner? r = some v
  | .vertex v, .finalWithBehavior =>
    ∃ content ∈ m.content? v, content.markedFinal = true ∧ (content.entry ≠ [] ∨ content.exit ≠ [])
  | .transition t, .localNotDescendant name =>
    ∃ record target, m.transition? t = some record ∧ record.kind = .withinSource ∧ record.target = some target ∧
      name = m.qualifiedName (.vertex target) ∧ ¬ m.Over record.source target
  | _, _ => False

/-- The element that the faults of a subject are put down to: itself, or the source of a transition. -/
def blamed : Subject → Element
  | .region r => .region r
  | .vertex v => .vertex v
  | .transition t => .vertex ((m.source? t).getD root)

def violation (s : Subject) (fault : Fault) : Violation := { element := m.qualifiedName (m.blamed s), fault }

end

variable {m : Model μ δ}

/-! ## Lists and links -/

theorem nodup_vertexIds (m : Model μ δ) : m.vertexIds.Nodup :=
  List.nodup_range.map fun _ _ heq => congrArg VertexId.index heq

theorem nodup_regionIds (m : Model μ δ) : m.regionIds.Nodup :=
  List.nodup_range.map fun _ _ heq => congrArg RegionId.index heq

theorem mem_transitionIds_iff {t : TransitionId} : t ∈ m.transitionIds ↔ (m.transition? t).isSome := by
  cases t; simp [transitionIds, transition?]

section
variable (h : m.Arena)
include h

theorem over_iff {u : VertexId} (v : VertexId) (hv : (m.vertex? v).isSome) :
    m.Over u v ↔ u ≠ v ∧ m.isAncestor u v = true := by
  -- from owner to owner: what is over `v` is its owner, or over that
  refine h.induction (motive := fun v => m.Over u v ↔ u ≠ v ∧ m.isAncestor u v = true) ?_ ?_ v hv
  · rw [isAncestor_iff h h.vertex?_root_isSome, chain_root h, List.mem_singleton]
    refine ⟨fun hover => ?_, fun ⟨hne, heq⟩ => absurd heq hne⟩
    cases hover with
    | owner hp _ => rw [h.parent?_root] at hp; cases hp
    | up hp _ _ => rw [h.parent?_root] at hp; cases hp
  · intro v r o hp ho ih
    have hknown := vertex?_isSome_of_isState (h.isState_of_owner? ho)
    have hstep : m.Over u v ↔ u = o ∨ m.Over u o := by
      refine ⟨fun hover => ?_, fun hover => ?_⟩
      · cases hover with
        | owner hp' ho' => rw [hp] at hp'; cases hp'; rw [ho] at ho'; cases ho'; exact Or.inl rfl
        | up hp' ho' hover => rw [hp] at hp'; cases hp'; rw [ho] at ho'; cases ho'; exact Or.inr hover
      · rcases hover with rfl | hover
        · exact .owner hp ho
        · exact .up hp ho hover
    have hne : m.isAncestor u o = true → u ≠ v := by
      rintro hu rfl
      have hle := index_le_of_mem_chain h o hknown ((isAncestor_iff h hknown).mp hu)
      have hlt := h.owner?_lt hp ho
      omega
    have hanc : m.isAncestor u v = true ↔ m.isAncestor u o = true ∨ u = v := by
      rw [isAncestor_iff h (vertex?_isSome_of_parent? hp), isAncestor_iff h hknown, chain_eq h hp ho, List.mem_append,
        List.mem_singleton]
    rw [hstep, ih, hanc]
    refine ⟨fun hu => ?_, fun ⟨huv, hu⟩ => ?_⟩
    · have hu : m.isAncestor u o = true := by
        rcases hu with rfl | hu
        · exact isAncestor_refl h hknown
        · exact hu.2
      exact ⟨hne hu, Or.inl hu⟩
    · by_cases huo : u = o
      · exact Or.inl huo
      · exact Or.inr ⟨huo, hu.resolve_right huv⟩

theorem countP_isInitial (r : RegionId) : (m.verticesOf r).countP m.isInitial = (m.initialsIn r).length := by
  have hperm : (m.verticesOf r).Perm (m.vertexIds.filter fun v => m.parent? v = some r) := by
    refine (List.perm_ext_iff_of_nodup (h.nodup_verticesOf r) (m.nodup_vertexIds.filter _)).mpr fun v => ?_
    rw [h.mem_verticesOf, List.mem_filter, decide_eq_true_eq]
    exact ⟨fun hp => ⟨mem_vertexIds.mpr (vertex?_isSome_iff.mp (vertex?_isSome_of_parent? hp)), hp⟩, fun hp => hp.2⟩
  rw [hperm.countP_eq, List.countP_eq_length_filter, List.filter_filter, initialsIn]
  simp only [Bool.and_comm]

theorem countP_default (v : VertexId) :
    (m.regionsOf v).countP (fun r => (m.region? r).any (·.name == defaultRegionName)) = (m.defaultsOf v).length := by
  have hperm : (m.regionsOf v).Perm (m.regionIds.filter fun r => m.owner? r = some v) := by
    refine (List.perm_ext_iff_of_nodup (h.nodup_regionsOf v) (m.nodup_regionIds.filter _)).mpr fun r => ?_
    rw [h.mem_regionsOf, List.mem_filter, decide_eq_true_eq]
    exact ⟨fun ho => ⟨mem_regionIds_of_owner? ho, ho⟩, fun ho => ho.2⟩
  rw [hperm.countP_eq, List.countP_eq_length_filter, List.filter_filter, defaultsOf]
  simp only [Bool.and_comm]

end

/-! ## Rules -/

def rule (m : Model μ δ) : Subject → List Check
  | .region r => m.regionRule r
  | .vertex v => m.vertexRule v
  | .transition t => m.transitionRule t

def faults (m : Model μ δ) (s : Subject) : List Fault := ((m.rule s).filterMap id).map (·.fault)

structure Finds (m : Model μ δ) (s : Subject) : Prop where
  violations : (m.rule s).filterMap id = (m.faults s).map (m.violation s)
  nodup : (m.faults s).Nodup
  mem_iff : ∀ fault, fault ∈ m.faults s ↔ m.Breaks s fault

theorem filterMap_ensure (s : Subject) (conditions : List (Bool × Fault)) :
    (conditions.map fun condition => m.ensure condition.1 (m.blamed s) condition.2).filterMap id =
      ((conditions.filter (!·.1)).map Prod.snd).map (m.violation s) := by
  induction conditions with
  | nil => rfl
  | cons condition conditions ih =>
    obtain ⟨holds, fault⟩ := condition
    cases holds <;> simpa [ensure, violation] using ih

theorem finds_of_conditions {s : Subject} (conditions : List (Bool × Fault))
    (hrule : m.rule s = conditions.map fun condition => m.ensure condition.1 (m.blamed s) condition.2)
    (hnodup : (conditions.map Prod.snd).Nodup)
    (hmem : ∀ fault, (false, fault) ∈ conditions ↔ m.Breaks s fault) : m.Finds s := by
  have hviolations := filterMap_ensure (m := m) s conditions
  rw [← hrule] at hviolations
  have hfaults : m.faults s = (conditions.filter (!·.1)).map Prod.snd := by
    rw [faults, hviolations, List.map_map]
    exact List.map_id _
  refine ⟨hfaults ▸ hviolations, ?_, fun fault => ?_⟩
  · rw [hfaults]
    exact hnodup.sublist (List.filter_sublist.map Prod.snd)
  · rw [hfaults, ← hmem]
    simp

theorem finds_region (h : m.Arena) {r : RegionId} (hr : (m.region? r).isSome) : m.Finds (.region r) := by
  refine finds_of_conditions [((m.initialsIn r).length ≤ 1, .multipleInitials (m.initialsIn r).length)] ?_ (by simp)
    fun fault => ?_
  · simp [rule, regionRule, countP_isInitial h, blamed]
  · cases fault <;> simp [Breaks, hr]
    constructor
    · rintro ⟨hlt, rfl⟩
      exact ⟨rfl, hlt⟩
    · rintro ⟨rfl, hlt⟩
      exact ⟨hlt, rfl⟩

theorem content?_eq_some {v : VertexId} {content : State μ δ} :
    m.content? v = some content ↔ ∃ record, m.vertex? v = some record ∧ record.form = .state content := by
  rw [content?, Option.bind_eq_some_iff]
  refine exists_congr fun record => and_congr_right fun _ => ?_
  cases hf : record.form <;> simp [Vertex.state?, hf]

theorem content?_of_kind? {v : VertexId} {kind : PseudoKind} (hv : m.kind? v = some kind) : m.content? v = none := by
  obtain ⟨record, hrec, hf⟩ := kind?_eq_some.mp hv
  simp [content?, hrec, Vertex.state?, hf]

theorem kind?_of_content? {v : VertexId} {content : State μ δ} (hv : m.content? v = some content) :
    m.kind? v = none := by
  obtain ⟨record, hrec, hf⟩ := content?_eq_some.mp hv
  simp [kind?, hrec, Vertex.pseudoKind?, hf]

theorem regions_of_content? {v : VertexId} {content : State μ δ} (hv : m.content? v = some content) :
    content.regions = m.regionsOf v := by
  obtain ⟨record, hrec, hf⟩ := content?_eq_some.mp hv
  simp [regionsOf, hrec, Vertex.regions, hf]

theorem rule_of_kind? {v : VertexId} {kind : PseudoKind} (hv : m.kind? v = some kind) :
    m.rule (.vertex v) = m.pseudoRule v kind := by
  obtain ⟨record, hrec, hf⟩ := kind?_eq_some.mp hv
  simp [rule, vertexRule, hrec, hf]

theorem rule_of_content? {v : VertexId} {content : State μ δ} (hv : m.content? v = some content) :
    m.rule (.vertex v) = m.stateRule v content := by
  obtain ⟨record, hrec, hf⟩ := content?_eq_some.mp hv
  simp [rule, vertexRule, hrec, hf]

theorem isGuarded_iff {t : TransitionId} : m.IsGuarded t ↔
    ((m.transition? t).any fun record => !record.guard.isUnconditional && !record.isElse) = true := by
  unfold IsGuarded
  cases m.transition? t with
  | none => simp
  | some record => cases hg : record.guard <;> simp [Transition.isElse, Guard.isElse, Guard.isUnconditional, hg]

theorem finds_pseudo (ho : m.Orderly) {v : VertexId} {kind : PseudoKind} (hv : m.kind? v = some kind) :
    m.Finds (.vertex v) := by
  have hcontent := content?_of_kind? hv
  have hout : m.outgoing v = m.leaving v := ho.outgoing v
  have hcount : (m.leaving v).countP m.isElse = (m.elseLeaving v).length := List.countP_eq_length_filter
  -- branches, initial kinds and the others differ in which conditions there are
  cases hb : kind.isBranch with
  | true =>
    have hi : kind.isInitial = false := Bool.eq_false_iff.mpr fun hi => by
      rw [PseudoKind.isBranch_eq_false_of_isInitial hi] at hb; cases hb
    refine finds_of_conditions [(!(m.leaving v).isEmpty, .noBranches kind),
      ((m.elseLeaving v).length ≤ 1, .multipleElse kind (m.elseLeaving v).length)] ?_ (by simp) fun fault => ?_
    · rw [rule_of_kind? hv, pseudoRule, hout, hcount, hb]
      rfl
    · cases fault <;> simp [Breaks, hv, hcontent] <;> grind
  | false =>
    cases hi : kind.isInitial with
    | false =>
      refine finds_of_conditions [((m.elseLeaving v).length = 0, .unexpectedElse kind)] ?_ (by simp) fun fault => ?_
      · rw [rule_of_kind? hv, pseudoRule, hout, hcount, hb, hi]
        rfl
      · cases fault <;> simp [Breaks, hv, hcontent] <;> grind
    | true =>
      have hguarded : ((m.leaving v).any fun t => (m.transition? t).any fun record =>
          !record.guard.isUnconditional && !record.isElse) = true ↔ ∃ t ∈ m.leaving v, m.IsGuarded t := by
        simp only [List.any_eq_true, isGuarded_iff]
      refine finds_of_conditions [((m.elseLeaving v).length = 0, .unexpectedElse kind),
        ((m.leaving v).length = 1, .initialOutgoing kind (m.leaving v).length),
        (!(m.leaving v).any fun t => (m.transition? t).any fun record =>
          !record.guard.isUnconditional && !record.isElse, .guardedInitial kind)] ?_ (by simp) fun fault => ?_
      · rw [rule_of_kind? hv, pseudoRule, hout, hcount, hb, hi]
        rfl
      · cases fault <;> simp only [List.mem_cons, Prod.mk.injEq, List.not_mem_nil, Breaks, hv, hcontent] <;> grind

theorem finds_state (h : m.Arena) (ho : m.Orderly) {v : VertexId} {content : State μ δ}
    (hv : m.content? v = some content) : m.Finds (.vertex v) := by
  have hkind := kind?_of_content? hv
  have hout : m.outgoing v = m.leaving v := ho.outgoing v
  have hregions : content.regions = m.regionsOf v := regions_of_content? hv
  have hcount := countP_default h v
  have howned : m.regionsOf v ≠ [] ↔ ∃ r, m.owner? r = some v := by
    refine ⟨fun hne => ?_, fun ⟨r, hr⟩ => List.ne_nil_of_mem (h.mem_regionsOf.mpr hr)⟩
    obtain ⟨r, hr⟩ := List.exists_mem_of_ne_nil _ hne
    exact ⟨r, h.mem_regionsOf.mp hr⟩
  cases hfinal : content.markedFinal with
  | false =>
    refine finds_of_conditions [((m.defaultsOf v).length ≤ 1, .duplicateDefaultRegion (m.defaultsOf v).length)] ?_
      (by simp) fun fault => ?_
    · rw [rule_of_content? hv, stateRule, hregions, hcount, hfinal]
      rfl
    · cases fault <;> simp [Breaks, hv, hkind, hfinal]
      grind
  | true =>
    refine finds_of_conditions [((m.defaultsOf v).length ≤ 1, .duplicateDefaultRegion (m.defaultsOf v).length),
      ((m.leaving v).isEmpty, .finalWithOutgoing), ((m.regionsOf v).isEmpty, .finalWithRegions),
      (content.entry.isEmpty && content.exit.isEmpty, .finalWithBehavior)] ?_ (by simp) fun fault => ?_
    · rw [rule_of_content? hv, stateRule, hregions, hcount, hout, hfinal, State.isSimple, hregions]
      rfl
    · cases fault <;> simp [Breaks, hv, hkind, hfinal, ← howned] <;> grind

theorem finds_transition (h : m.Arena) {t : TransitionId} {record : Transition μ δ}
    (hrec : m.transition? t = some record) : m.Finds (.transition t) := by
  have hsource : m.source? t = some record.source := by simp [source?, hrec]
  by_cases hlocal : record.kind = .withinSource
  · cases hu : record.target with
    | none =>
      refine finds_of_conditions [] ?_ (by simp) fun fault => ?_
      · simp [rule, transitionRule, hrec, hu]
      · cases fault <;> simp [Breaks, hrec, hu]
    | some target =>
      have hover := over_iff h target (h.target_isSome hrec hu) (u := record.source)
      refine finds_of_conditions [(record.source ≠ target && m.isAncestor record.source target,
        .localNotDescendant (m.qualifiedName (.vertex target)))] ?_ (by simp) fun fault => ?_
      · simp [rule, transitionRule, hrec, hlocal, hu, blamed, hsource]
      · cases fault <;> simp [Breaks, hrec, hlocal, hu, hover]
        grind
  · refine finds_of_conditions [] ?_ (by simp) fun fault => ?_
    · simp only [rule, transitionRule, hrec, List.map_nil]
      cases hk : record.kind <;> simp_all
    · cases fault <;> simp [Breaks, hrec, hlocal]

/-! ## All rules -/

def subjects (m : Model μ δ) : List Subject :=
  m.regionIds.map .region ++ m.vertexIds.map .vertex ++ m.transitionIds.map .transition

def findings (m : Model μ δ) : List (Subject × Fault) := m.subjects.flatMap fun s => (m.faults s).map (s, ·)

theorem pairwise_subjects (m : Model μ δ) : m.subjects.Pairwise Subject.Before := by
  have hregions : (m.regionIds.map Subject.region).Pairwise Subject.Before := by
    rw [regionIds, List.map_map, List.pairwise_map]
    exact List.pairwise_lt_range.imp fun hlt => Or.inr ⟨rfl, hlt⟩
  have hvertices : (m.vertexIds.map Subject.vertex).Pairwise Subject.Before := by
    rw [vertexIds, List.map_map, List.pairwise_map]
    exact List.pairwise_lt_range.imp fun hlt => Or.inr ⟨rfl, hlt⟩
  have htransitions : (m.transitionIds.map Subject.transition).Pairwise Subject.Before := by
    rw [transitionIds, List.map_map, List.pairwise_map]
    exact List.pairwise_lt_range.imp fun hlt => Or.inr ⟨rfl, hlt⟩
  refine List.pairwise_append.mpr ⟨List.pairwise_append.mpr ⟨hregions, hvertices, ?_⟩, htransitions, ?_⟩
  · intro s hs s' hs'
    obtain ⟨r, _, rfl⟩ := List.mem_map.mp hs
    obtain ⟨v, _, rfl⟩ := List.mem_map.mp hs'
    exact Or.inl (by simp [Subject.place])
  · intro s hs s' hs'
    obtain ⟨t, _, rfl⟩ := List.mem_map.mp hs'
    rcases List.mem_append.mp hs with hs | hs
    · obtain ⟨r, _, rfl⟩ := List.mem_map.mp hs
      exact Or.inl (by simp [Subject.place])
    · obtain ⟨v, _, rfl⟩ := List.mem_map.mp hs
      exact Or.inl (by simp [Subject.place])

theorem mem_subjects_of_breaks {s : Subject} {fault : Fault} (hb : m.Breaks s fault) : s ∈ m.subjects := by
  rw [subjects, List.mem_append, List.mem_append]
  cases s with
  | region r =>
    refine Or.inl (Or.inl (List.mem_map_of_mem (mem_regionIds.mpr ?_)))
    cases fault <;> first | exact hb.1 | exact hb.elim
  | vertex v =>
    refine Or.inl (Or.inr (List.mem_map_of_mem (mem_vertexIds.mpr (vertex?_isSome_iff.mp ?_))))
    by_contra hnone
    rw [Option.not_isSome_iff_eq_none] at hnone
    cases fault <;> simp [Breaks, kind?, content?, hnone] at hb
  | transition t =>
    refine Or.inr (List.mem_map_of_mem ?_)
    cases fault with
    | localNotDescendant name =>
      obtain ⟨record, _, hrec, _⟩ := hb
      exact mem_transitionIds_iff.mpr (by simp [hrec])
    | _ => exact hb.elim

theorem finds_of_mem (h : m.Arena) (ho : m.Orderly) {s : Subject} (hs : s ∈ m.subjects) : m.Finds s := by
  rw [subjects, List.mem_append, List.mem_append] at hs
  rcases hs with (hs | hs) | hs
  · obtain ⟨r, hr, rfl⟩ := List.mem_map.mp hs
    exact finds_region h (mem_regionIds.mp hr)
  · obtain ⟨v, hv, rfl⟩ := List.mem_map.mp hs
    obtain ⟨record, hrec⟩ := Option.isSome_iff_exists.mp (vertex?_isSome_iff.mpr (mem_vertexIds.mp hv))
    cases hf : record.form with
    | pseudo kind => exact finds_pseudo ho (kind?_eq_some.mpr ⟨record, hrec, hf⟩)
    | state content => exact finds_state h ho (content?_eq_some.mpr ⟨record, hrec, hf⟩)
  · obtain ⟨t, ht, rfl⟩ := List.mem_map.mp hs
    obtain ⟨record, hrec⟩ := Option.isSome_iff_exists.mp (mem_transitionIds_iff.mp ht)
    exact finds_transition h hrec

/-- The findings are the breaches of the rules, each of them once, regions first, then vertices, then transitions. -/
structure Lists (m : Model μ δ) (findings : List (Subject × Fault)) : Prop where
  nodup : findings.Nodup
  mem_iff : ∀ s fault, (s, fault) ∈ findings ↔ m.Breaks s fault
  ordered : findings.Pairwise fun finding later => finding.1 = later.1 ∨ finding.1.Before later.1

section
variable (h : m.Arena) (ho : m.Orderly)
include h ho

theorem violations_eq : m.violations = m.findings.map fun finding => m.violation finding.1 finding.2 := by
  have hchecks : m.checks = m.subjects.flatMap m.rule := by
    simp [checks, subjects, List.flatMap_map, rule]
  rw [violations, hchecks, List.filterMap_flatMap, findings, List.map_flatMap]
  refine List.flatMap_congr fun s hs => ?_
  rw [(finds_of_mem h ho hs).violations, List.map_map]
  rfl

theorem lists_findings : m.Lists m.findings where
  nodup := by
    refine List.nodup_flatMap.mpr ⟨fun s hs => ?_, m.pairwise_subjects.imp fun hb => ?_⟩
    · exact (finds_of_mem h ho hs).nodup.map fun _ _ heq => congrArg Prod.snd heq
    · intro finding hfinding hfinding'
      obtain ⟨fault, _, rfl⟩ := List.mem_map.mp hfinding
      obtain ⟨fault', _, heq⟩ := List.mem_map.mp hfinding'
      exact hb.ne (congrArg Prod.fst heq).symm
  mem_iff s fault := by
    rw [findings, List.mem_flatMap]
    refine ⟨fun ⟨s', hs', hmem⟩ => ?_, fun hb => ?_⟩
    · obtain ⟨fault', hfault', heq⟩ := List.mem_map.mp hmem
      cases heq
      exact ((finds_of_mem h ho hs').mem_iff fault).mp hfault'
    · have hs := mem_subjects_of_breaks hb
      exact ⟨s, hs, List.mem_map_of_mem (((finds_of_mem h ho hs).mem_iff fault).mpr hb)⟩
  ordered := by
    refine List.pairwise_flatMap.mpr ⟨fun s _ => ?_, m.pairwise_subjects.imp fun hb x hx y hy => ?_⟩
    · exact List.pairwise_map.mpr (List.pairwise_of_forall fun _ _ => Or.inl rfl)
    · obtain ⟨fault, _, rfl⟩ := List.mem_map.mp hx
      obtain ⟨fault', _, rfl⟩ := List.mem_map.mp hy
      exact Or.inr hb

end

end Model

end Statechart
