import Statechart.Proofs.Changes
import Statechart.Proofs.Triple

/-!
# Building keeps models together

Whatever building operations are applied to a new machine, in whatever order and with whatever success, its model hangs
together, and a program it holds is the one its model compiles to.
-/

namespace Statechart

variable {μ δ : Type}

/-! ## Operations -/

inductive Edit (μ δ : Type) where
  | addRegion (owner : VertexId) (name : String)
  | defaultRegion (owner : VertexId)
  | addState (parent : Parent) (name : String)
  | addFinalState (parent : Parent) (name : String)
  | addPseudoState (parent : Parent) (name : String) (kind : PseudoKind)
  | onEntry (owner : VertexId) (action : Action μ δ)
  | onExit (owner : VertexId) (action : Action μ δ)
  | addTransition (draft : Draft μ δ)
  | addEffect (transition : TransitionId) (action : Action μ δ)
  | rename (vertex : VertexId) (name : String)

namespace Edit

def perform : Edit μ δ → Build μ δ Unit
  | .addRegion owner name => discard (Build.addRegion owner name)
  | .defaultRegion owner => discard (Build.defaultRegion owner)
  | .addState parent name => discard (Build.addState parent name)
  | .addFinalState parent name => discard (Build.addFinalState parent name)
  | .addPseudoState parent name kind => discard (Build.addPseudoState parent name kind)
  | .onEntry owner action => Build.onEntry owner action
  | .onExit owner action => Build.onExit owner action
  | .addTransition draft => discard (Build.addTransition draft)
  | .addEffect transition action => Build.addEffect transition action
  | .rename vertex name => Build.rename vertex name

def apply (e : Edit μ δ) (m : Machine μ δ) : Machine μ δ :=
  match e.perform m with
  | .ok _ m' => m'
  | .error _ m' => m'

def Uses (A : Action μ δ → Prop) : Edit μ δ → Prop
  | .onEntry _ a | .onExit _ a | .addEffect _ a => A a
  | .addTransition draft => ∀ a ∈ draft.effects, A a
  | _ => True

end Edit

def Machine.edited (m : Machine μ δ) (edits : List (Edit μ δ)) : Machine μ δ := edits.foldl (fun m e => e.apply m) m

/-- Machines made from a new one by building operations and compilations. -/
inductive Machine.Built : Machine μ δ → Prop
  | ofName (name : String) : Built (.ofName name)
  | edit (e : Edit μ δ) {m : Machine μ δ} : Built m → Built (e.apply m)
  | compile {m : Machine μ δ} : Built m → Built m.compile

/-! ## Building operations -/

/-- The model hangs together, and the program is the one it compiles to. -/
structure Machine.Sound (m : Machine μ δ) : Prop where
  arena : m.toModel.Arena
  program : ∀ p, m.program = some p → p = m.toModel.compile

def Machine.SoundWith (P : Model μ δ → Prop) (m : Machine μ δ) : Prop := m.Sound ∧ P m.toModel

namespace Build

def Keeps {α : Type} (P : Model μ δ → Prop) (b : Build μ δ α) : Prop :=
  Triple (Machine.SoundWith P) b (fun _ => Machine.SoundWith P) (fun _ => Machine.SoundWith P)

theorem vertex_spec (R : Machine μ δ → Prop) (id : VertexId) :
    Triple R (vertex id) (fun record m => R m ∧ m.vertex? id = some record) (fun _ => R) := by
  refine Triple.bind (Triple.get (Q := fun m' m => R m ∧ m' = m) fun m hm => ⟨hm, rfl⟩) ?_
  rintro m'
  cases hv : m'.vertex? id with
  | none => exact Triple.throw fun _ hm => hm.1
  | some record => exact Triple.pure fun m hm => ⟨hm.1, hm.2 ▸ hv⟩

theorem state_spec (R : Machine μ δ → Prop) (id : VertexId) :
    Triple R (state id) (fun _ m => R m ∧ m.isState id = true) (fun _ => R) := by
  refine Triple.bind (vertex_spec R id) fun record => ?_
  cases hf : record.form with
  | state content => exact Triple.pure fun m hm => ⟨hm.1, Model.isState_iff.mpr ⟨record, content, hm.2, hf⟩⟩
  | pseudo kind => exact Triple.throw fun m hm => hm.1

/-! ## Regions -/

section
variable {P : Model μ δ → Prop} (hP : ∀ m s name, m.Arena → m.isState s = true → P m → P (m.pushRegion s name))
include hP

theorem addRegion_spec (owner : VertexId) (name : String) :
    Triple (Machine.SoundWith P) (addRegion owner name)
      (fun r m => m.SoundWith P ∧ (m.region? r).isSome) (fun _ => Machine.SoundWith P) := by
  refine Triple.bind (state_spec _ owner) fun _ => ?_
  refine Triple.bind (Triple.get (Q := fun m' m => (m.SoundWith P ∧ m.isState owner = true) ∧ m' = m)
    fun m hm => ⟨hm, rfl⟩) fun m' => ?_
  refine Triple.bind (R := fun _ m => m.SoundWith P ∧ (m.region? ⟨m'.regions.size⟩).isSome) ?_ fun _ => ?_
  · refine Triple.modify fun m hm => ?_
    obtain ⟨⟨hs, ho⟩, rfl⟩ := hm
    refine ⟨⟨⟨Model.arena_pushRegion hs.1.arena ho name, by simp⟩, hP _ _ _ hs.1.arena ho hs.2⟩, ?_⟩
    exact Option.isSome_iff_exists.mpr ⟨_, by rw [Model.region?_pushRegion]; exact if_pos rfl⟩
  · exact Triple.pure fun m hm => hm

theorem defaultRegion_spec (owner : VertexId) :
    Triple (Machine.SoundWith P) (defaultRegion owner)
      (fun r m => m.SoundWith P ∧ (m.region? r).isSome) (fun _ => Machine.SoundWith P) := by
  refine Triple.bind (state_spec _ owner) fun _ => ?_
  refine Triple.bind (Triple.get (Q := fun m' m => m.SoundWith P ∧ m' = m) fun m hm => ⟨hm.1, rfl⟩) fun m' => ?_
  cases hr : m'.regionNamed? owner defaultRegionName with
  | none => exact (addRegion_spec hP owner _).pre fun m hm => hm.1
  | some r =>
    refine Triple.pure fun m hm => ⟨hm.1, ?_⟩
    obtain ⟨hs, rfl⟩ := hm
    obtain ⟨region, hreg, _⟩ :=
      Model.owner?_eq_some.mp (hs.1.arena.mem_regionsOf.mp (List.mem_of_find?_eq_some hr))
    simp [hreg]

theorem regionOf_spec (parent : Parent) :
    Triple (Machine.SoundWith P) (regionOf parent)
      (fun r m => m.SoundWith P ∧ (m.region? r).isSome) (fun _ => Machine.SoundWith P) := by
  cases parent with
  | state owner => exact defaultRegion_spec hP owner
  | region id =>
    refine Triple.bind (Triple.get (Q := fun m' m => m.SoundWith P ∧ m' = m) fun m hm => ⟨hm, rfl⟩) fun m' => ?_
    by_cases hr : (m'.region? id).isSome
    · simp only [hr, ite_true]
      exact Triple.pure fun m hm => ⟨hm.1, hm.2 ▸ hr⟩
    · simp only [hr]
      exact Triple.throw fun m hm => hm.1

end

/-! ## Changes -/

section
variable {A : Action μ δ → Prop} {P : Model μ δ → Prop} (hP : ∀ m m', m.Arena → Model.Change A m m' → P m → P m')
include hP

theorem soundWith_change {f : Model μ δ → Model μ δ} {m : Machine μ δ} (hm : m.SoundWith P)
    (hc : Model.Change A m.toModel (f m.toModel)) :
    Machine.SoundWith P { toModel := f m.toModel, program := none } :=
  ⟨⟨hc.arena hm.1.arena, by simp⟩, hP _ _ hm.1.arena hc hm.2⟩

theorem change_spec {R : Machine μ δ → Prop} {f : Model μ δ → Model μ δ}
    (hR : ∀ m, R m → m.SoundWith P ∧ Model.Change A m.toModel (f m.toModel)) :
    Triple R (change f) (fun _ => Machine.SoundWith P) (fun _ => Machine.SoundWith P) :=
  Triple.modify fun m hm => soundWith_change hP (hR m hm).1 (hR m hm).2

/-! ## Vertices -/

theorem keeps_addVertex (parent : Parent) (name : String) {form : Form μ δ}
    (hform : ∀ content, form = .state content → content.regions = [] ∧ content.entry = [] ∧ content.exit = []) :
    Keeps P (addVertex parent name form) := by
  refine Triple.bind (regionOf_spec (fun m _ name h hs => hP m _ h (.region name hs)) parent) fun region => ?_
  refine Triple.bind (Triple.get (Q := fun m' m => (m.SoundWith P ∧ (m.region? region).isSome) ∧ m' = m)
    fun m hm => ⟨hm, rfl⟩) fun m' => ?_
  by_cases hn : (m'.vertexNamed? region name).isSome
  · simp only [hn, ite_true]
    exact Triple.throw_bind fun m hm => hm.1.1
  · simp only [hn]
    refine Triple.bind (R := fun _ => Machine.SoundWith P) ?_ fun _ => Triple.pure fun _ hm => hm
    refine change_spec hP fun m hm => ⟨hm.1.1, .vertex name form hm.1.2 (fun w hw hname => hn ?_) hform⟩
    rw [hm.2]
    exact Model.isSome_vertexNamed? hm.1.1.1.arena hw hname

theorem keeps_rename (v : VertexId) (name : String) : Keeps P (rename v name) := by
  refine Triple.bind (vertex_spec _ v) fun record => ?_
  refine Triple.bind (Triple.get (Q := fun m' m => (m.SoundWith P ∧ m.vertex? v = some record) ∧ m' = m)
    fun m hm => ⟨hm, rfl⟩) fun m' => ?_
  have hc : (∀ r w, record.parent = some r → m'.parent? w = some r → w ≠ v → m'.name? w ≠ some name) →
      Triple (fun m => (m.SoundWith P ∧ m.vertex? v = some record) ∧ m' = m)
        (change fun m => m.modifyVertex v fun record => { record with name })
        (fun _ => Machine.SoundWith P) (fun _ => Machine.SoundWith P) := by
    refine fun hn => change_spec hP fun m hm => ⟨hm.1.1, .name v name fun r w hv hw hne => ?_⟩
    obtain ⟨⟨_, hrec⟩, rfl⟩ := hm
    obtain ⟨_, hrec', hp⟩ := Model.parent?_eq_some.mp hv
    rw [hrec] at hrec'; cases hrec'
    exact hn r w hp hw hne
  cases hp : record.parent with
  | none => exact hc (by simp [hp])
  | some region =>
    simp only
    split
    · exact Triple.throw_bind fun m hm => hm.1.1
    · rename_i hany
      refine Triple.assume fun m hm => (hc fun r w hr hw hne hname => hany ?_).start hm
      rw [hp] at hr; cases hr
      obtain ⟨⟨hs, _⟩, rfl⟩ := hm
      exact Model.any_verticesOf hs.1.arena hw hne hname

/-! ## Behaviour and transitions -/

theorem keeps_onEntry (owner : VertexId) {action : Action μ δ} (ha : A action) : Keeps P (onEntry owner action) :=
  Triple.bind (state_spec _ owner) fun _ => change_spec hP fun _ hm => ⟨hm.1, .entry owner ha⟩

theorem keeps_onExit (owner : VertexId) {action : Action μ δ} (ha : A action) : Keeps P (onExit owner action) :=
  Triple.bind (state_spec _ owner) fun _ => change_spec hP fun _ hm => ⟨hm.1, .exit owner ha⟩

theorem keeps_addEffect (t : TransitionId) {action : Action μ δ} (ha : A action) : Keeps P (addEffect t action) := by
  refine Triple.bind (Triple.get (Q := fun _ m => m.SoundWith P) fun m hm => hm) fun m' => ?_
  have hc : Triple (Machine.SoundWith P)
      (change fun m =>
        { m with transitions :=
            m.transitions.modify t.index fun record => { record with effects := record.effects ++ [action] } })
      (fun _ => Machine.SoundWith P) (fun _ => Machine.SoundWith P) :=
    change_spec hP fun m hm => ⟨hm, .effect t ha⟩
  split
  · exact Triple.throw_bind fun m hm => hm
  · exact hc

theorem keeps_addTransition {d : Draft μ δ} (hd : ∀ a ∈ d.effects, A a) : Keeps P (addTransition d) := by
  refine Triple.bind (vertex_spec _ d.source) fun source => ?_
  -- Drafts differ in kind, target and guard of what is added, and not in what it takes to be added.
  have hpush : ∀ (kind : TransitionKind) (target : Option VertexId) (guard : Guard μ δ) (id : TransitionId),
      (kind = .internal ↔ target = none) →
      Triple (fun m : Machine μ δ => m.SoundWith P ∧ (m.vertex? d.source).isSome ∧
          ∀ u, target = some u → (m.vertex? u).isSome)
        (do
          change (·.pushTransition { source := d.source, target, kind, guard, effects := d.effects })
          pure id)
        (fun _ => Machine.SoundWith P) (fun _ => Machine.SoundWith P) := by
    intro kind target guard id hk
    refine Triple.bind (R := fun _ => Machine.SoundWith P) ?_ fun _ => Triple.pure fun _ hm => hm
    exact change_spec hP fun m hm => ⟨hm.1, .transition hm.2.1 hm.2.2 hk hd⟩
  cases ht : d.target with
  | none =>
    refine Triple.bind (Triple.get (Q := fun _ m => m.SoundWith P ∧ (m.vertex? d.source).isSome)
      fun m hm => ⟨hm.1, by simp [hm.2]⟩) fun m' => ?_
    exact (hpush .internal none _ _ (by simp)).pre fun m hm => ⟨hm.1, hm.2, by simp⟩
  | some target =>
    refine Triple.bind ((vertex_spec _ target).conseq (fun _ hm => hm) (fun _ _ hm => hm) fun _ _ hm => hm.1)
      fun _ => ?_
    refine Triple.bind (Triple.get
      (Q := fun _ m => m.SoundWith P ∧ (m.vertex? d.source).isSome ∧ (m.vertex? target).isSome)
      fun m hm => ⟨hm.1.1, by simp [hm.1.2], by simp [hm.2]⟩) fun m' => ?_
    by_cases hk : d.kind = .internal
    · simp only [hk, ite_true]
      by_cases hs : target = d.source
      · simp only [hs, ite_true]
        exact (hpush .internal none _ _ (by simp)).pre fun m hm => ⟨hm.1, hm.2.1, by simp⟩
      · simp only [hs, ite_false]
        exact Triple.throw_bind fun m hm => hm.1
    · simp only [hk, ite_false]
      refine (hpush d.kind (some target) _ _ (by simp [hk])).pre fun m hm => ⟨hm.1, hm.2.1, ?_⟩
      rintro u hu; cases hu; exact hm.2.2

end

end Build

/-! ## Sequences of operations -/

theorem Edit.apply_of_triple {P Q : Machine μ δ → Prop} {e : Edit μ δ}
    (h : Triple P e.perform (fun _ => Q) fun _ => Q) {m : Machine μ δ} (hm : P m) : Q (e.apply m) := by
  have hq := h m hm
  unfold Edit.apply
  cases hr : e.perform m with
  | ok a m' => rw [hr] at hq; exact hq
  | error e m' => rw [hr] at hq; exact hq

section
variable {A : Action μ δ → Prop} {P : Model μ δ → Prop} (hP : ∀ m m', m.Arena → Model.Change A m m' → P m → P m')
include hP

theorem Edit.keeps {e : Edit μ δ} (he : e.Uses A) : Build.Keeps P e.perform := by
  have hregion : ∀ m s name, m.Arena → m.isState s = true → P m → P (m.pushRegion s name) :=
    fun m _ name h hs => hP m _ h (.region name hs)
  cases e with
  | addRegion owner name =>
    exact Triple.bind ((Build.addRegion_spec hregion owner name).post fun _ _ hm => hm.1) fun _ =>
      Triple.pure fun _ hm => hm
  | defaultRegion owner =>
    exact Triple.bind ((Build.defaultRegion_spec hregion owner).post fun _ _ hm => hm.1) fun _ =>
      Triple.pure fun _ hm => hm
  | addState parent name =>
    exact Triple.bind (Build.keeps_addVertex hP parent name (by rintro _ ⟨⟩; exact ⟨rfl, rfl, rfl⟩)) fun _ =>
      Triple.pure fun _ hm => hm
  | addFinalState parent name =>
    exact Triple.bind (Build.keeps_addVertex hP parent name (by rintro _ ⟨⟩; exact ⟨rfl, rfl, rfl⟩)) fun _ =>
      Triple.pure fun _ hm => hm
  | addPseudoState parent name kind =>
    exact Triple.bind (Build.keeps_addVertex hP parent name (by rintro _ ⟨⟩)) fun _ => Triple.pure fun _ hm => hm
  | onEntry owner action => exact Build.keeps_onEntry hP owner he
  | onExit owner action => exact Build.keeps_onExit hP owner he
  | addTransition draft =>
    exact Triple.bind (Build.keeps_addTransition hP he) fun _ => Triple.pure fun _ hm => hm
  | addEffect transition action => exact Build.keeps_addEffect hP transition he
  | rename vertex name => exact Build.keeps_rename hP vertex name

theorem Edit.soundWith_apply {m : Machine μ δ} (hm : m.SoundWith P) {e : Edit μ δ} (he : e.Uses A) :
    (e.apply m).SoundWith P := Edit.apply_of_triple (e.keeps hP he) hm

theorem Machine.SoundWith.edited {m : Machine μ δ} (hm : m.SoundWith P) {edits : List (Edit μ δ)}
    (he : ∀ e ∈ edits, e.Uses A) : (m.edited edits).SoundWith P := by
  induction edits generalizing m with
  | nil => exact hm
  | cons e edits ih =>
    exact ih (e.soundWith_apply hP hm (he e (by simp))) fun e he' => he e (List.mem_cons_of_mem _ he')

end

namespace Machine

theorem sound_ofName (name : String) : (ofName name : Machine μ δ).Sound :=
  ⟨Model.arena_ofName name, by rintro p ⟨⟩⟩

theorem Sound.apply {m : Machine μ δ} (h : m.Sound) (e : Edit μ δ) : (e.apply m).Sound := by
  have he : e.Uses fun _ => True := by cases e <;> simp [Edit.Uses]
  exact (e.soundWith_apply (P := fun _ => True) (fun _ _ _ _ _ => trivial) ⟨h, trivial⟩ he).1

theorem Sound.compile {m : Machine μ δ} (h : m.Sound) : m.compile.Sound :=
  ⟨h.arena, by rintro p ⟨⟩; rfl⟩

theorem acts_edited {A : Action μ δ → Prop} (name : String) {edits : List (Edit μ δ)} (he : ∀ e ∈ edits, e.Uses A) :
    ((ofName name).edited edits).Acts A :=
  (SoundWith.edited (fun _ _ _ hc hm => hc.acts hm) ⟨sound_ofName name, Model.acts_ofName A name⟩ he).2

theorem tame_edited (name : String) {edits : List (Edit μ δ)} (he : ∀ e ∈ edits, e.Uses Action.Tame) :
    ((ofName name).edited edits).Tame :=
  Model.tame_iff.mpr (acts_edited name he)

theorem Built.edited {m : Machine μ δ} (h : m.Built) (edits : List (Edit μ δ)) : (m.edited edits).Built := by
  induction edits generalizing m with
  | nil => exact h
  | cons e edits ih => exact ih (h.edit e)

theorem Built.sound {m : Machine μ δ} (h : m.Built) : m.Sound := by
  induction h with
  | ofName name => exact sound_ofName name
  | edit e _ ih => exact ih.apply e
  | compile _ ih => exact ih.compile

end Machine

end Statechart
