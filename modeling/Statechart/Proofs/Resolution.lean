import Statechart.Proofs.QualifiedNames

/-!
# What a snapshot mentions

A snapshot need not come from the machine it is restored into. Each of its names is looked up where the names above it
lead to. Restoring stops at the first name that nothing bears, and until then nothing has been written.
-/

namespace Statechart

variable {μ δ : Type}

/-! ## Mentions -/

/-- What a name stands for in a snapshot: a region of a state, a vertex of a region with what is recorded beneath it,
or the vertex recorded for a region. -/
inductive Role where
  | region | state | current
deriving DecidableEq, Repr

structure Mention where
  /-- The names above it, from beneath the root down. -/
  place : List String
  name : String
  role : Role
deriving DecidableEq, Repr

mutual

/-- The names beneath a state, depth first. The name of the state itself is not among them. -/
def StateNode.mentions (place : List String) : StateNode → List Mention
  | .mk _ regions => regionMentions place regions

def regionMentions (place : List String) : List RegionNode → List Mention
  | [] => []
  | node :: rest =>
    ⟨place, node.name, .region⟩ :: (node.mentions (place ++ [node.name]) ++ regionMentions place rest)

/-- The names beneath a region. What is recorded for it comes before its states. -/
def RegionNode.mentions (place : List String) : RegionNode → List Mention
  | .mk _ current states => (current.toList.map fun name => ⟨place, name, .current⟩) ++ stateMentions place states

def stateMentions (place : List String) : List StateNode → List Mention
  | [] => []
  | node :: rest =>
    ⟨place, node.name, .state⟩ :: (node.mentions (place ++ [node.name]) ++ stateMentions place rest)

end

def Snapshot.mentions (s : Snapshot) : List Mention := s.root.mentions []

/-! ## What names lead to -/

def FirstNamed {α : Type} (name? : α → Option String) (l : List α) (name : String) (a : α) : Prop :=
  ∃ before after, l = before ++ a :: after ∧ name? a = some name ∧ ∀ b ∈ before, name? b ≠ some name

theorem find?_eq_some_iff_firstNamed {α : Type} {name? : α → Option String} {p : α → Bool} {l : List α} {name : String}
    {a : α} (hp : ∀ b, p b = true ↔ name? b = some name) : l.find? p = some a ↔ FirstNamed name? l name a := by
  rw [List.find?_eq_some_iff_append]
  constructor
  · rintro ⟨ha, before, after, rfl, hbefore⟩
    exact ⟨before, after, rfl, (hp a).mp ha, fun b hb hname => by simpa [(hp b).mpr hname] using hbefore b hb⟩
  · rintro ⟨before, after, rfl, ha, hbefore⟩
    exact ⟨(hp a).mpr ha, before, after, rfl, fun b hb => by simpa [← hp] using hbefore b hb⟩

namespace Model

/-- The names lead from the root to the element. Where several regions or vertices bear the same name, the first that
has been declared is meant. -/
inductive Denotes (m : Model μ δ) : List String → Element → Prop
  | root : Denotes m [] (.vertex root)
  | region {place : List String} {name : String} {v : VertexId} {r : RegionId} : Denotes m place (.vertex v) →
      FirstNamed (fun q => m.elementName? (.region q)) (m.regionsOf v) name r →
      Denotes m (place ++ [name]) (.region r)
  | vertex {place : List String} {name : String} {r : RegionId} {v : VertexId} : Denotes m place (.region r) →
      FirstNamed m.name? (m.verticesOf r) name v → Denotes m (place ++ [name]) (.vertex v)

/-- The mention is of this region, where it leads to a region of a state, or of this vertex, where it leads to a vertex
of a region. -/
inductive Locates (m : Model μ δ) (x : Mention) : Element → Prop
  | region {v : VertexId} {r : RegionId} : x.role = .region → m.Denotes x.place (.vertex v) →
      m.Denotes (x.place ++ [x.name]) (.region r) → Locates m x (.region r)
  | vertex {r : RegionId} {v : VertexId} : x.role ≠ .region → m.Denotes x.place (.region r) →
      m.Denotes (x.place ++ [x.name]) (.vertex v) → Locates m x (.vertex v)

def Knows (m : Model μ δ) (x : Mention) : Prop := ∃ e, m.Locates x e

def Writes (m : Model μ δ) (x : Mention) (r : RegionId) : Prop := x.role = .current ∧ m.Denotes x.place (.region r)

def Assigns (m : Model μ δ) (x : Mention) (r : RegionId) (v : VertexId) : Prop :=
  m.Writes x r ∧ FirstNamed m.name? (m.verticesOf r) x.name v

/-- The path to what is mentioned, with the name of the machine in front. -/
def spelling (m : Model μ δ) (x : Mention) : String := separator.intercalate (m.name :: x.place ++ [x.name])

variable {m : Model μ δ}

theorem regionNamed?_eq_some {v : VertexId} {name : String} {r : RegionId} : m.regionNamed? v name = some r ↔
    FirstNamed (fun q => m.elementName? (.region q)) (m.regionsOf v) name r :=
  find?_eq_some_iff_firstNamed fun q => by simp [elementName?, Option.any_eq_true]

theorem vertexNamed?_eq_some {r : RegionId} {name : String} {v : VertexId} :
    m.vertexNamed? r name = some v ↔ FirstNamed m.name? (m.verticesOf r) name v :=
  find?_eq_some_iff_firstNamed fun w => by simp [name?, Option.any_eq_true]

/-! ## Looking names up -/

def child? (m : Model μ δ) : Element → String → Option Element
  | .vertex v, name => (m.regionNamed? v name).map .region
  | .region r, name => (m.vertexNamed? r name).map .vertex

def denoted? (m : Model μ δ) (place : List String) : Option Element := place.foldlM m.child? (.vertex Statechart.root)

theorem denoted?_append (place : List String) (name : String) :
    m.denoted? (place ++ [name]) = (m.denoted? place).bind (m.child? · name) := by
  simp [denoted?]

theorem denotes_iff {place : List String} {e : Element} : m.Denotes place e ↔ m.denoted? place = some e := by
  constructor
  · intro h
    induction h with
    | root => rfl
    | region _ hr ih => simp [denoted?_append, ih, child?, regionNamed?_eq_some.mpr hr]
    | vertex _ hv ih => simp [denoted?_append, ih, child?, vertexNamed?_eq_some.mpr hv]
  · intro h
    induction place using List.reverseRecOn generalizing e with
    | nil =>
      cases h
      exact .root
    | append_singleton place name ih =>
      rw [denoted?_append, Option.bind_eq_some_iff] at h
      obtain ⟨parent, hparent, hchild⟩ := h
      cases parent with
      | vertex v =>
        obtain ⟨r, hr, rfl⟩ := Option.map_eq_some_iff.mp hchild
        exact (ih hparent).region (regionNamed?_eq_some.mp hr)
      | region r =>
        obtain ⟨v, hv, rfl⟩ := Option.map_eq_some_iff.mp hchild
        exact (ih hparent).vertex (vertexNamed?_eq_some.mp hv)

theorem denoted?_region {place : List String} {v : VertexId} (hv : m.denoted? place = some (.vertex v)) (name : String) :
    m.denoted? (place ++ [name]) = (m.regionNamed? v name).map .region := by
  simp [denoted?_append, hv, child?]

theorem denoted?_vertex {place : List String} {r : RegionId} (hr : m.denoted? place = some (.region r)) (name : String) :
    m.denoted? (place ++ [name]) = (m.vertexNamed? r name).map .vertex := by
  simp [denoted?_append, hr, child?]

/-- Nothing where the mention is of nothing that the model has, and what it says about the records otherwise. -/
def entries? (m : Model μ δ) (x : Mention) : Option (List (RegionId × VertexId)) :=
  match x.role, m.denoted? x.place with
  | .region, some (.vertex v) => (m.regionNamed? v x.name).map fun _ => []
  | .state, some (.region r) => (m.vertexNamed? r x.name).map fun _ => []
  | .current, some (.region r) => (m.vertexNamed? r x.name).map fun v => [(r, v)]
  | _, _ => none

def lookUp (m : Model μ δ) : List Mention → Except CheckpointError (List (RegionId × VertexId))
  | [] => .ok []
  | x :: rest =>
    match m.entries? x with
    | none => .error (.unknownElement (m.spelling x))
    | some found => do return found ++ (← lookUp m rest)

theorem Knows.of_regionNamed? {x : Mention} {v : VertexId} {r : RegionId} (hrole : x.role = .region)
    (hv : m.denoted? x.place = some (.vertex v)) (hr : m.regionNamed? v x.name = some r) : m.Knows x :=
  ⟨_, .region hrole (denotes_iff.mpr hv) (.region (denotes_iff.mpr hv) (regionNamed?_eq_some.mp hr))⟩

theorem Knows.of_vertexNamed? {x : Mention} {r : RegionId} {v : VertexId} (hrole : x.role ≠ .region)
    (hr : m.denoted? x.place = some (.region r)) (hv : m.vertexNamed? r x.name = some v) : m.Knows x :=
  ⟨_, .vertex hrole (denotes_iff.mpr hr) (.vertex (denotes_iff.mpr hr) (vertexNamed?_eq_some.mp hv))⟩

theorem knows_iff {x : Mention} : m.Knows x ↔ (m.entries? x).isSome := by
  constructor
  · rintro ⟨e, ⟨hrole, hv, hr⟩ | ⟨hrole, hr, hv⟩⟩
    · rw [denotes_iff] at hv hr
      rw [denoted?_region hv] at hr
      simp_all [entries?]
    · rw [denotes_iff] at hr hv
      rw [denoted?_vertex hr] at hv
      cases hx : x.role <;> simp_all [entries?]
  · intro hx
    unfold entries? at hx
    split at hx
    · rename_i v hrole hv
      obtain ⟨r, hr⟩ := Option.isSome_iff_exists.mp (by simpa using hx)
      exact .of_regionNamed? hrole hv hr
    · rename_i r hrole hr
      obtain ⟨v, hv⟩ := Option.isSome_iff_exists.mp (by simpa using hx)
      exact .of_vertexNamed? (by simp [hrole]) hr hv
    · rename_i r hrole hr
      obtain ⟨v, hv⟩ := Option.isSome_iff_exists.mp (by simpa using hx)
      exact .of_vertexNamed? (by simp [hrole]) hr hv
    · cases hx

instance decidableWrites (x : Mention) (r : RegionId) : Decidable (m.Writes x r) :=
  decidable_of_iff (x.role = .current ∧ m.denoted? x.place = some (.region r)) (by rw [Writes, denotes_iff])

instance decidableKnows (x : Mention) : Decidable (m.Knows x) := decidable_of_iff _ knows_iff.symm

theorem mem_entries? {x : Mention} {found : List (RegionId × VertexId)} (hx : m.entries? x = some found)
    {r : RegionId} {v : VertexId} : (r, v) ∈ found ↔ m.Assigns x r v := by
  rw [Assigns, Writes, denotes_iff, ← vertexNamed?_eq_some]
  unfold entries? at hx
  split at hx
  · obtain ⟨_, _, rfl⟩ := Option.map_eq_some_iff.mp hx
    simp_all
  · obtain ⟨_, _, rfl⟩ := Option.map_eq_some_iff.mp hx
    simp_all
  · rename_i q hrole hq
    obtain ⟨w, hw, rfl⟩ := Option.map_eq_some_iff.mp hx
    rw [hq, List.mem_singleton]
    constructor
    · rintro ⟨⟩
      exact ⟨⟨hrole, rfl⟩, hw⟩
    · rintro ⟨⟨_, hr⟩, hv⟩
      cases hr
      rw [Option.some_inj.mp (hw.symm.trans hv)]
  · cases hx

theorem lookUp_cons_none {x : Mention} (hx : m.entries? x = none) (rest : List Mention) :
    m.lookUp (x :: rest) = .error (.unknownElement (m.spelling x)) := by
  rw [lookUp, hx]

theorem lookUp_cons_some {x : Mention} {found : List (RegionId × VertexId)} (hx : m.entries? x = some found)
    (rest : List Mention) : m.lookUp (x :: rest) = do return found ++ (← m.lookUp rest) := by
  rw [lookUp, hx]

theorem lookUp_append (ms ms' : List Mention) :
    m.lookUp (ms ++ ms') = do return (← m.lookUp ms) ++ (← m.lookUp ms') := by
  induction ms with
  | nil => cases h : m.lookUp ms' <;> simp [lookUp, h, bind, Except.bind, pure, Except.pure]
  | cons x rest ih =>
    rw [List.cons_append]
    cases hx : m.entries? x with
    | none => simp only [lookUp_cons_none hx]; rfl
    | some found =>
      rw [lookUp_cons_some hx, lookUp_cons_some hx, ih]
      cases m.lookUp rest <;> cases m.lookUp ms' <;> simp [bind, Except.bind, pure, Except.pure]

/-! ## Names of elements -/

section
variable (h : m.Arena)
include h

theorem names?_of_denotes {place : List String} {e : Element} (hd : m.Denotes place e) :
    m.names? e = some (m.name :: place) := by
  induction hd with
  | root =>
    obtain ⟨name, hname, hroot⟩ := names?_root h
    rw [hroot, Model.name]
    unfold name? at hname
    rw [hname]
    rfl
  | @region place name v r _ hr ih =>
    obtain ⟨before, after, heq, hname, _⟩ := hr
    have ho : m.owner? r = some v := h.mem_regionsOf.mp (by simp [heq])
    obtain ⟨name', hname', hnames⟩ := names?_region h ho ih
    rw [hnames, Option.some_inj.mp (hname'.symm.trans hname)]
    rfl
  | @vertex place name r v _ hv ih =>
    obtain ⟨before, after, heq, hname, _⟩ := hv
    have hp : m.parent? v = some r := h.mem_verticesOf.mp (by simp [heq])
    obtain ⟨name', hname', hnames⟩ := names?_vertex h hp ih
    rw [hnames, Option.some_inj.mp (hname'.symm.trans hname)]
    rfl

theorem unknown_eq {place : List String} {e : Element} (he : m.denoted? place = some e) (name : String) (role : Role) :
    m.unknown e name = .unknownElement (m.spelling ⟨place, name, role⟩) := by
  rw [unknown, spelling, qualifiedName, qualifiedName?_eq, names?_of_denotes h (denotes_iff.mpr he),
    String.intercalate_append_of_ne_nil (by simp) (by simp), String.intercalate_singleton]
  rfl

end

/-! ## Resolving is looking up what is mentioned -/

mutual

theorem resolveState_eq (h : m.Arena) {place : List String} {v : VertexId} (hv : m.denoted? place = some (.vertex v)) :
    ∀ node : StateNode, m.resolveState v node = m.lookUp (node.mentions place)
  | .mk _ regions => by
    rw [resolveState, StateNode.mentions]
    exact resolveRegions_eq h hv regions

theorem resolveRegions_eq (h : m.Arena) {place : List String} {v : VertexId} (hv : m.denoted? place = some (.vertex v)) :
    ∀ nodes : List RegionNode, m.resolveRegions v nodes = m.lookUp (regionMentions place nodes)
  | [] => by rw [resolveRegions, regionMentions, lookUp]
  | node :: rest => by
    rw [resolveRegions, regionMentions]
    cases hr : m.regionNamed? v node.name with
    | none =>
      rw [lookUp_cons_none (by simp [entries?, hv, hr]), ← unknown_eq h hv]
    | some r =>
      have hplace : m.denoted? (place ++ [node.name]) = some (.region r) := by simp [denoted?_region hv, hr]
      have hfound : m.entries? ⟨place, node.name, .region⟩ = some [] := by simp [entries?, hv, hr]
      rw [lookUp_cons_some hfound, lookUp_append, ← resolveRegion_eq h hplace node, ← resolveRegions_eq h hv rest]
      simp

theorem resolveRegion_eq (h : m.Arena) {place : List String} {r : RegionId} (hr : m.denoted? place = some (.region r)) :
    ∀ node : RegionNode, m.resolveRegion r node = m.lookUp (node.mentions place)
  | .mk _ current states => by
    rw [resolveRegion.eq_def, RegionNode.mentions, lookUp_append, ← resolveStates_eq h hr states]
    cases current with
    | none => rfl
    | some name =>
      simp only [Option.toList_some, List.map_cons, List.map_nil]
      cases hv : m.vertexNamed? r name with
      | none => rw [lookUp_cons_none (by simp [entries?, hr, hv]), ← unknown_eq h hr]
      | some v =>
        have hfound : m.entries? ⟨place, name, .current⟩ = some [(r, v)] := by simp [entries?, hr, hv]
        rw [lookUp_cons_some hfound, lookUp]
        rfl

theorem resolveStates_eq (h : m.Arena) {place : List String} {r : RegionId} (hr : m.denoted? place = some (.region r)) :
    ∀ nodes : List StateNode, m.resolveStates r nodes = m.lookUp (stateMentions place nodes)
  | [] => by rw [resolveStates, stateMentions, lookUp]
  | node :: rest => by
    rw [resolveStates, stateMentions]
    cases hv : m.vertexNamed? r node.name with
    | none => rw [lookUp_cons_none (by simp [entries?, hr, hv]), ← unknown_eq h hr]
    | some v =>
      have hplace : m.denoted? (place ++ [node.name]) = some (.vertex v) := by simp [denoted?_vertex hr, hv]
      have hfound : m.entries? ⟨place, node.name, .state⟩ = some [] := by simp [entries?, hr, hv]
      rw [lookUp_cons_some hfound, lookUp_append, ← resolveState_eq h hplace node, ← resolveStates_eq h hr rest]
      simp

end

theorem resolve_eq (h : m.Arena) (s : Snapshot) : m.resolveState root s.root = m.lookUp s.mentions :=
  resolveState_eq h (show m.denoted? [] = some (.vertex root) from rfl) s.root

/-! ## What looking up comes to -/

theorem lookUp_of_first {before after : List Mention} {x : Mention} (hbefore : ∀ y ∈ before, m.Knows y)
    (hx : ¬ m.Knows x) : m.lookUp (before ++ x :: after) = .error (.unknownElement (m.spelling x)) := by
  induction before with
  | nil => exact lookUp_cons_none (by simpa [knows_iff] using hx) after
  | cons y before ih =>
    obtain ⟨found, hy⟩ := Option.isSome_iff_exists.mp (knows_iff.mp (hbefore y (by simp)))
    rw [List.cons_append, lookUp_cons_some hy, ih fun z hz => hbefore z (List.mem_cons_of_mem _ hz)]
    rfl

theorem exists_first_unknown {ms : List Mention} (h : ∃ x ∈ ms, ¬ m.Knows x) :
    ∃ before x after, ms = before ++ x :: after ∧ (∀ y ∈ before, m.Knows y) ∧ ¬ m.Knows x := by
  have hfound : (ms.find? fun x => (m.entries? x).isNone).isSome := by
    simpa [List.find?_isSome, knows_iff] using h
  obtain ⟨x, hx⟩ := Option.isSome_iff_exists.mp hfound
  obtain ⟨hnone, before, after, rfl, hbefore⟩ := List.find?_eq_some_iff_append.mp hx
  refine ⟨before, x, after, rfl, fun y hy => ?_, ?_⟩
  · have := hbefore y hy
    simp_all [knows_iff, Option.isSome_iff_ne_none]
  · simpa [knows_iff] using hnone

theorem exists_lookUp {ms : List Mention} (h : ∀ x ∈ ms, m.Knows x) : ∃ l, m.lookUp ms = .ok l := by
  induction ms with
  | nil => exact ⟨[], rfl⟩
  | cons x rest ih =>
    obtain ⟨found, hx⟩ := Option.isSome_iff_exists.mp (knows_iff.mp (h x (by simp)))
    obtain ⟨l, hl⟩ := ih fun y hy => h y (List.mem_cons_of_mem _ hy)
    exact ⟨found ++ l, by rw [lookUp_cons_some hx, hl]; rfl⟩

theorem of_lookUp_cons {x : Mention} {rest : List Mention} {l : List (RegionId × VertexId)}
    (hl : m.lookUp (x :: rest) = .ok l) :
    ∃ found l', m.entries? x = some found ∧ m.lookUp rest = .ok l' ∧ l = found ++ l' := by
  cases hx : m.entries? x with
  | none => rw [lookUp_cons_none hx] at hl; cases hl
  | some found =>
    rw [lookUp_cons_some hx] at hl
    cases hrest : m.lookUp rest with
    | error e => rw [hrest] at hl; cases hl
    | ok l' => rw [hrest] at hl; cases hl; exact ⟨found, l', rfl, rfl, rfl⟩

theorem of_lookUp_append {ms ms' : List Mention} {l : List (RegionId × VertexId)} (hl : m.lookUp (ms ++ ms') = .ok l) :
    ∃ l₁ l₂, m.lookUp ms = .ok l₁ ∧ m.lookUp ms' = .ok l₂ ∧ l = l₁ ++ l₂ := by
  rw [lookUp_append] at hl
  cases h₁ : m.lookUp ms with
  | error e => rw [h₁] at hl; cases hl
  | ok l₁ =>
    cases h₂ : m.lookUp ms' with
    | error e => rw [h₁, h₂] at hl; cases hl
    | ok l₂ => rw [h₁, h₂] at hl; cases hl; exact ⟨l₁, l₂, rfl, rfl, rfl⟩

theorem mem_of_lookUp {ms : List Mention} {l : List (RegionId × VertexId)} (hl : m.lookUp ms = .ok l) {r : RegionId}
    {v : VertexId} : (r, v) ∈ l ↔ ∃ x ∈ ms, m.Assigns x r v := by
  induction ms generalizing l with
  | nil => cases hl; simp
  | cons x rest ih =>
    obtain ⟨found, l', hx, hrest, rfl⟩ := of_lookUp_cons hl
    simp [mem_entries? hx, ih hrest]

/-! ## What is written -/

/-- What the snapshot makes of the instance `i`. -/
structure Written (m : Model μ δ) (s : Snapshot) (i i' : Instance δ) : Prop where
  reached : ∀ x ∈ s.mentions, x.role = .current → ∃ r, m.Writes x r
  /-- What is recorded for a region is written, unless there is more about it further on. -/
  last : ∀ before x after r, s.mentions = before ++ x :: after → m.Writes x r → (∀ y ∈ after, ¬ m.Writes y r) →
    ∃ v, FirstNamed m.name? (m.verticesOf r) x.name v ∧ i'.current? r = some v
  kept : ∀ r, (∀ x ∈ s.mentions, ¬ m.Writes x r) → i'.current? r = i.current? r
  terminated : i'.terminated = s.terminated
  data : i'.data = i.data

theorem Knows.exists_writes {x : Mention} (hx : m.Knows x) (hrole : x.role = .current) : ∃ r, m.Writes x r := by
  obtain ⟨e, ⟨hregion, _, _⟩ | ⟨_, hr, _⟩⟩ := hx
  · rw [hrole] at hregion; cases hregion
  · exact ⟨_, hrole, hr⟩

theorem Writes.exists_assigns {x : Mention} {r : RegionId} (hr : m.Writes x r) (hx : m.Knows x) :
    ∃ v, m.Assigns x r v := by
  obtain ⟨found, hx⟩ := Option.isSome_iff_exists.mp (knows_iff.mp hx)
  rw [entries?, hr.1, denotes_iff.mp hr.2] at hx
  obtain ⟨v, hv, _⟩ := Option.map_eq_some_iff.mp hx
  exact ⟨v, hr, vertexNamed?_eq_some.mp hv⟩

theorem Assigns.unique {x : Mention} {r : RegionId} {v w : VertexId} (hv : m.Assigns x r v) (hw : m.Assigns x r w) :
    v = w :=
  Option.some_inj.mp ((vertexNamed?_eq_some.mpr hv.2).symm.trans (vertexNamed?_eq_some.mpr hw.2))

theorem data_foldl_setCurrent (l : List (RegionId × VertexId)) (i : Instance δ) :
    (l.foldl (fun i (r, v) => i.setCurrent r v) i).data = i.data := by
  induction l generalizing i with
  | nil => rfl
  | cons e l ih => exact ih _

theorem written_of_lookUp {s : Snapshot} {l : List (RegionId × VertexId)} (hl : m.lookUp s.mentions = .ok l)
    (hknown : ∀ x ∈ s.mentions, m.Knows x) (i : Instance δ) :
    m.Written s i ((l.foldl (fun i (r, v) => i.setCurrent r v) i).setTerminated s.terminated) where
  reached x hx := (hknown x hx).exists_writes
  last before x after r hsplit hx hlast := by
    obtain ⟨v, hv⟩ := hx.exists_assigns (hknown x (by simp [hsplit]))
    rw [hsplit] at hl
    obtain ⟨l₁, l₂, _, hl₂, rfl⟩ := of_lookUp_append hl
    refine ⟨v, hv.2, ?_⟩
    rw [Instance.current?_setTerminated, List.foldl_append]
    refine current?_foldl_setCurrent (fun e he her => ?_) (Or.inr ⟨(r, v), ?_, rfl⟩)
    · obtain ⟨y, hy, hye⟩ := (mem_of_lookUp hl₂).mp he
      rw [her] at hye
      rcases List.mem_cons.mp hy with rfl | hy
      · exact hye.unique hv
      · exact absurd hye.1 (hlast y hy)
    · exact (mem_of_lookUp hl₂).mpr ⟨x, by simp, hv⟩
  kept r hr := by
    refine current?_foldl_of_not_mem fun e he her => ?_
    obtain ⟨x, hx, hxr⟩ := (mem_of_lookUp hl).mp he
    exact hr x hx (her ▸ hxr.1)
  terminated := rfl
  data := data_foldl_setCurrent l i

/-- Restoring into the instance at hand, where each record is written as it comes. -/
def restoring (m : Model μ δ) (s : Snapshot) : EStateM CheckpointError (Instance δ) Unit :=
  if s.machine = m.name then
    match m.resolveState root s.root with
    | .error e => throw e
    | .ok recorded => do
      recorded.forM fun (r, v) => modify (·.setCurrent r v)
      modify (·.setTerminated s.terminated)
  else
    throw (.machineMismatch m.name s.machine)

theorem forM_setCurrent (l : List (RegionId × VertexId)) (i : Instance δ) :
    (l.forM fun (r, v) => modify (·.setCurrent r v) : EStateM CheckpointError (Instance δ) Unit) i =
      .ok () (l.foldl (fun i (r, v) => i.setCurrent r v) i) := by
  induction l generalizing i with
  | nil => rfl
  | cons e l ih => exact ih (i.setCurrent e.1 e.2)

theorem restoring_eq (s : Snapshot) (i : Instance δ) :
    m.restoring s i = match m.restore s i with
      | .ok i' => .ok () i'
      | .error e => .error e i := by
  unfold restoring restore
  split
  · cases m.resolveState root s.root with
    | error e => rfl
    | ok l =>
      simp [bind, EStateM.bind, forM_setCurrent]
      rfl
  · rfl

/-! ## All or nothing -/

/-- How restoring may come out. -/
structure RestoresWholly (m : Model μ δ) (s : Snapshot) (i : Instance δ) : Prop where
  /-- The snapshot is of another machine if and only if restoring says so, and then it says of which. -/
  mismatch : (∃ expected found, m.restore s i = .error (.machineMismatch expected found)) ↔ s.machine ≠ m.name
  names : ∀ expected found, m.restore s i = .error (.machineMismatch expected found) →
    expected = m.name ∧ found = s.machine
  unknown : s.machine = m.name →
    ((∃ name, m.restore s i = .error (.unknownElement name)) ↔ ∃ x ∈ s.mentions, ¬ m.Knows x)
  first : s.machine = m.name → ∀ before x after, s.mentions = before ++ x :: after → (∀ y ∈ before, m.Knows y) →
    ¬ m.Knows x → m.restore s i = .error (.unknownElement (m.spelling x))
  /-- An instance that was to be restored in place is as it was. -/
  untouched : ∀ e, m.restore s i = .error e → m.restoring s i = .error e i
  written : s.machine = m.name → (∀ x ∈ s.mentions, m.Knows x) →
    ∃ i', m.restore s i = .ok i' ∧ m.restoring s i = .ok () i' ∧ m.Written s i i'

theorem restore_of_ne {s : Snapshot} (hs : s.machine ≠ m.name) (i : Instance δ) :
    m.restore s i = .error (.machineMismatch m.name s.machine) := by
  rw [restore, if_neg hs]

section
variable (h : m.Arena) {s : Snapshot} (hs : s.machine = m.name) (i : Instance δ)
include h hs

theorem restore_of_error {e : CheckpointError} (he : m.lookUp s.mentions = .error e) : m.restore s i = .error e := by
  rw [restore, if_pos hs, resolve_eq h]
  exact (congrArg (· >>= _) he).trans rfl

theorem restore_of_ok {l : List (RegionId × VertexId)} (hl : m.lookUp s.mentions = .ok l) :
    m.restore s i = .ok ((l.foldl (fun i (r, v) => i.setCurrent r v) i).setTerminated s.terminated) := by
  rw [restore, if_pos hs, resolve_eq h]
  exact (congrArg (· >>= _) hl).trans rfl

theorem restore_of_first {before after : List Mention} {x : Mention} (hsplit : s.mentions = before ++ x :: after)
    (hbefore : ∀ y ∈ before, m.Knows y) (hx : ¬ m.Knows x) :
    m.restore s i = .error (.unknownElement (m.spelling x)) :=
  restore_of_error h hs i (by rw [hsplit]; exact lookUp_of_first hbefore hx)

theorem exists_written (hknown : ∀ x ∈ s.mentions, m.Knows x) :
    ∃ i', m.restore s i = .ok i' ∧ m.restoring s i = .ok () i' ∧ m.Written s i i' := by
  obtain ⟨l, hl⟩ := exists_lookUp hknown
  have hrestore := restore_of_ok h hs i hl
  exact ⟨_, hrestore, by rw [restoring_eq, hrestore], written_of_lookUp hl hknown i⟩

theorem restore_unknown_iff :
    (∃ name, m.restore s i = .error (.unknownElement name)) ↔ ∃ x ∈ s.mentions, ¬ m.Knows x := by
  constructor
  · rintro ⟨name, hname⟩
    by_contra hall
    obtain ⟨i', hok, _⟩ := exists_written h hs i (by simpa using hall)
    rw [hok] at hname
    cases hname
  · intro hx
    obtain ⟨before, x, after, hsplit, hbefore, hunknown⟩ := exists_first_unknown hx
    exact ⟨_, restore_of_first h hs i hsplit hbefore hunknown⟩

theorem restore_ne_mismatch (expected found : String) :
    m.restore s i ≠ .error (.machineMismatch expected found) := by
  intro heq
  by_cases hx : ∃ x ∈ s.mentions, ¬ m.Knows x
  · obtain ⟨name, hname⟩ := (restore_unknown_iff h hs i).mpr hx
    rw [hname] at heq
    cases heq
  · obtain ⟨i', hok, _⟩ := exists_written h hs i (by simpa using hx)
    rw [hok] at heq
    cases heq

end

theorem Arena.restoresWholly (h : m.Arena) (s : Snapshot) (i : Instance δ) : m.RestoresWholly s i where
  mismatch := by
    constructor
    · rintro ⟨expected, found, heq⟩ hs
      exact restore_ne_mismatch h hs i expected found heq
    · exact fun hs => ⟨_, _, restore_of_ne hs i⟩
  names expected found heq := by
    by_cases hs : s.machine = m.name
    · exact absurd heq (restore_ne_mismatch h hs i expected found)
    · rw [restore_of_ne hs] at heq
      simpa [eq_comm] using heq
  unknown hs := restore_unknown_iff h hs i
  first hs _ _ _ hsplit hbefore hx := restore_of_first h hs i hsplit hbefore hx
  untouched e he := by rw [restoring_eq, he]
  written hs hknown := exists_written h hs i hknown

end Model

namespace Machine

/-- Restoring a snapshot, wherever it comes from, writes all of it or none of it. -/
theorem Built.restores_wholly {m : Machine μ δ} (hm : m.Built) (s : Snapshot) (i : Instance δ) :
    m.RestoresWholly s i :=
  hm.sound.arena.restoresWholly s i

def radioNotes (light : String) : Snapshot where
  version := Snapshot.currentVersion
  id := Uuid.zero
  timestamp := Instant.epoch
  machine := "radio"
  terminated := false
  root := .mk "" [.mk "default" none [
    .mk "on" [.mk "sound" (some "quiet") []],
    .mk "on" [.mk "sound" (some "loud") [], .mk "light" (some light) []]]]

theorem restores_wholly_radio :
    (∃ i' : Instance Unit, radio.restore (radioNotes "dim") { data := () } = .ok i' ∧ i'.current? ⟨1⟩ = some ⟨4⟩) ∧
      radio.restoring (radioNotes "bright") { data := () } =
        .error (.unknownElement "radio.default.on.light.bright") { data := () } := by
  have hbuilt : radio.Built := (Built.ofName "radio").edited _
  have hname : "radio" = radio.toModel.name := by decide +kernel
  constructor
  · obtain ⟨i', hrestore, _, hwritten⟩ := (hbuilt.restores_wholly (radioNotes "dim") { data := () }).written
      hname (by decide +kernel)
    have hsplit : (radioNotes "dim").mentions = (radioNotes "dim").mentions.take 6 ++
        ⟨["default", "on", "sound"], "loud", .current⟩ :: (radioNotes "dim").mentions.drop 7 := by decide +kernel
    obtain ⟨v, hv, hcurrent⟩ := hwritten.last _ _ _ ⟨1⟩ hsplit (by decide +kernel) (by decide +kernel)
    have hloud : radio.vertexNamed? ⟨1⟩ "loud" = some ⟨4⟩ := by decide +kernel
    rw [← Model.vertexNamed?_eq_some, hloud] at hv
    cases hv
    exact ⟨i', hrestore, hcurrent⟩
  · have hwhole := hbuilt.restores_wholly (radioNotes "bright") { data := () }
    have hsplit : (radioNotes "bright").mentions = (radioNotes "bright").mentions.take 8 ++
        ⟨["default", "on", "light"], "bright", .current⟩ :: [] := by decide +kernel
    have hspelling : radio.spelling ⟨["default", "on", "light"], "bright", .current⟩ =
        "radio.default.on.light.bright" := by decide +kernel
    rw [← hspelling]
    exact hwhole.untouched _ (hwhole.first hname _ _ _ hsplit (by decide +kernel) (by decide +kernel))

end Machine

end Statechart
