import Statechart.Proofs.Checkpoints
import Statechart.Proofs.Verdicts

/-!
# Qualified names

Where no name holds the separator, a qualified name can be split into the names it was joined from. It then tells its
element from all others, as long as siblings differ in name. Vertices are kept from sharing a name when they are added
and when they are renamed; regions are not, and only default regions are counted when a model is checked.
-/

namespace Statechart

variable {μ δ : Type}

/-! ## Joining names -/

def IsPlain (name : String) : Prop := '.' ∉ name.toList

instance decidableIsPlain (name : String) : Decidable (IsPlain name) := inferInstanceAs (Decidable (¬ _))

theorem splitOn_joined {names : List String} (hplain : ∀ name ∈ names, IsPlain name) (hne : names ≠ []) :
    (separator.intercalate names).toList.splitOn '.' = names.map String.toList := by
  have hseparator : separator.toList = ['.'] := by decide
  rw [String.toList_intercalate, hseparator]
  apply List.splitOn_intercalate
  · intro chars hchars
    obtain ⟨name, hname, rfl⟩ := List.mem_map.mp hchars
    exact hplain name hname
  · simpa using hne

theorem joined_injective {names names' : List String} (hplain : ∀ name ∈ names, IsPlain name)
    (hplain' : ∀ name ∈ names', IsPlain name) (hne : names ≠ []) (hne' : names' ≠ [])
    (heq : separator.intercalate names = separator.intercalate names') : names = names' := by
  have hchars : names.map String.toList = names'.map String.toList := by
    rw [← splitOn_joined hplain hne, ← splitOn_joined hplain' hne', heq]
  exact List.map_injective_iff.mpr (fun _ _ => String.toList_inj.mp) hchars

namespace Model

variable {m : Model μ δ}

def elements (m : Model μ δ) : List Element := m.vertexIds.map .vertex ++ m.regionIds.map .region

def NamesPlainly (m : Model μ δ) : Prop := ∀ e ∈ m.elements, ∀ name ∈ m.elementName? e, IsPlain name

instance decidableNamesPlainly (m : Model μ δ) : Decidable m.NamesPlainly :=
  inferInstanceAs (Decidable (∀ e ∈ m.elements, _))

/-- Regions of one state have different names, unless they are default regions. -/
def NamesRegionsApart (m : Model μ δ) : Prop :=
  ∀ o r q, m.owner? r = some o → m.owner? q = some o → m.elementName? (.region r) = m.elementName? (.region q) →
    m.elementName? (.region r) ≠ some defaultRegionName → r = q

/-- Qualified names tell vertices apart and regions apart, and each element is found by its own. -/
structure Identified (m : Model μ δ) : Prop where
  vertices : ∀ {v w}, (m.vertex? v).isSome → (m.vertex? w).isSome →
    m.qualifiedName (.vertex v) = m.qualifiedName (.vertex w) → v = w
  regions : ∀ {r q}, (m.region? r).isSome → (m.region? q).isSome →
    m.qualifiedName (.region r) = m.qualifiedName (.region q) → r = q
  findVertex : ∀ {v}, (m.vertex? v).isSome → m.findVertex? (m.qualifiedName (.vertex v)) = some v
  findRegion : ∀ {r}, (m.region? r).isSome → m.findRegion? (m.qualifiedName (.region r)) = some r

/-! ## From paths of names to qualified names -/

theorem qualifiedName?_eq (e : Element) : m.qualifiedName? e = (m.names? e).map separator.intercalate := rfl

theorem mem_elements_of_name {e : Element} {name : String} (he : m.elementName? e = some name) : e ∈ m.elements := by
  cases e with
  | vertex v =>
    have hv : (m.vertex? v).isSome := by
      cases hv : m.vertex? v <;> simp_all [elementName?]
    simpa [elements] using mem_vertexIds.mpr (vertex?_isSome_iff.mp hv)
  | region r =>
    have hr : (m.region? r).isSome := by
      cases hr : m.region? r <;> simp_all [elementName?]
    simpa [elements] using mem_regionIds.mpr hr

/-- How many names, modulo two, stand on a path to such an element: vertices and regions take turns. -/
def parity : Element → Nat
  | .vertex _ => 1
  | .region _ => 0

structure Spells (m : Model μ δ) (path : List String) (e : Element) : Prop where
  names : m.names? e = some path
  plain : ∀ name ∈ path, IsPlain name
  nonempty : path ≠ []
  parity : path.length % 2 = parity e

theorem Spells.region (h : m.Arena) (hp : m.NamesPlainly) {o : VertexId} {r : RegionId} {path : List String}
    (hs : m.Spells path (.vertex o)) (ho : m.owner? r = some o) : ∃ name, m.Spells (path ++ [name]) (.region r) := by
  obtain ⟨name, hname, hr⟩ := names?_region h ho hs.names
  have hplain := hp _ (mem_elements_of_name hname) name hname
  have hparity := hs.parity
  refine ⟨name, hr, ?_, by simp, ?_⟩
  · simpa [or_imp, forall_and] using ⟨hs.plain, hplain⟩
  · simp only [List.length_append, List.length_singleton, Model.parity] at hparity ⊢
    omega

theorem Spells.vertex (h : m.Arena) (hp : m.NamesPlainly) {v : VertexId} {r : RegionId} {path : List String}
    (hs : m.Spells path (.region r)) (hv : m.parent? v = some r) : ∃ name, m.Spells (path ++ [name]) (.vertex v) := by
  obtain ⟨name, hname, hnv⟩ := names?_vertex h hv hs.names
  have hname' : m.elementName? (.vertex v) = some name := hname
  have hplain := hp _ (mem_elements_of_name hname') name hname'
  have hparity := hs.parity
  refine ⟨name, hnv, ?_, by simp, ?_⟩
  · simpa [or_imp, forall_and] using ⟨hs.plain, hplain⟩
  · simp only [List.length_append, List.length_singleton, Model.parity] at hparity ⊢
    omega

theorem exists_spells_vertex (h : m.Arena) (hp : m.NamesPlainly) (v : VertexId) (hv : (m.vertex? v).isSome) :
    ∃ path, m.Spells path (.vertex v) := by
  refine h.induction (motive := fun v => ∃ path, m.Spells path (.vertex v)) ?_ ?_ v hv
  · obtain ⟨name, hname, hroot⟩ := names?_root h
    have hname' : m.elementName? (.vertex root) = some name := hname
    have hplain := hp _ (mem_elements_of_name hname') name hname'
    exact ⟨[name], hroot, by simpa using hplain, by simp, rfl⟩
  · intro v r o hparent ho ih
    obtain ⟨path, hs⟩ := ih
    obtain ⟨a, hr⟩ := hs.region h hp ho
    obtain ⟨b, hv⟩ := hr.vertex h hp hparent
    exact ⟨_, hv⟩

theorem exists_spells_region (h : m.Arena) (hp : m.NamesPlainly) {r : RegionId} {o : VertexId}
    (ho : m.owner? r = some o) : ∃ path, m.Spells path (.region r) := by
  obtain ⟨path, hs⟩ := exists_spells_vertex h hp o (vertex?_isSome_of_isState (h.isState_of_owner? ho))
  obtain ⟨name, hr⟩ := hs.region h hp ho
  exact ⟨_, hr⟩

theorem exists_owner? {r : RegionId} (hr : (m.region? r).isSome) : ∃ o, m.owner? r = some o := by
  obtain ⟨region, hreg⟩ := Option.isSome_iff_exists.mp hr
  exact ⟨region.parent, owner?_eq_some.mpr ⟨region, hreg, rfl⟩⟩

theorem Spells.qualifiedName {e : Element} {path : List String} (hs : m.Spells path e) :
    m.qualifiedName e = separator.intercalate path := by
  simp [Model.qualifiedName, qualifiedName?_eq, hs.names]

theorem Spells.qualifiedName? {e : Element} {path : List String} (hs : m.Spells path e) :
    m.qualifiedName? e = some (m.qualifiedName e) := by
  rw [hs.qualifiedName, qualifiedName?_eq, hs.names]
  rfl

theorem Spells.path_eq {e e' : Element} {path path' : List String} (hs : m.Spells path e) (hs' : m.Spells path' e')
    (heq : m.qualifiedName e = m.qualifiedName e') : path = path' := by
  apply joined_injective hs.plain hs'.plain hs.nonempty hs'.nonempty
  rw [← hs.qualifiedName, heq, hs'.qualifiedName]

/-! ## Telling elements apart -/

section
variable (h : m.Arena) (hp : m.NamesPlainly)
include h hp

theorem qualifiedName_apart {v : VertexId} {r : RegionId} {o : VertexId} (hv : (m.vertex? v).isSome)
    (ho : m.owner? r = some o) : m.qualifiedName (.vertex v) ≠ m.qualifiedName (.region r) := by
  intro heq
  obtain ⟨path, hs⟩ := exists_spells_vertex h hp v hv
  obtain ⟨path', hs'⟩ := exists_spells_region h hp ho
  have hodd := hs.parity
  have heven := hs'.parity
  rw [hs.path_eq hs' heq, heven] at hodd
  cases hodd

variable (hk : m.Known)
include hk

theorem Known.vertex_eq_of_qualifiedName {v w : VertexId} (hv : (m.vertex? v).isSome) (hw : (m.vertex? w).isSome)
    (heq : m.qualifiedName (.vertex v) = m.qualifiedName (.vertex w)) : v = w := by
  obtain ⟨path, hs⟩ := exists_spells_vertex h hp v hv
  obtain ⟨path', hs'⟩ := exists_spells_vertex h hp w hw
  apply hk.vertex hv hw
  rw [hs.names, hs'.names, hs.path_eq hs' heq]

theorem Known.region_eq_of_qualifiedName {r q : RegionId} {o s : VertexId} (hr : m.owner? r = some o)
    (hq : m.owner? q = some s) (heq : m.qualifiedName (.region r) = m.qualifiedName (.region q)) : r = q := by
  obtain ⟨path, hs⟩ := exists_spells_region h hp hr
  obtain ⟨path', hs'⟩ := exists_spells_region h hp hq
  apply hk.region hr hq
  rw [hs.names, hs'.names, hs.path_eq hs' heq]

theorem Known.findVertex?_eq {v : VertexId} (hv : (m.vertex? v).isSome) :
    m.findVertex? (m.qualifiedName (.vertex v)) = some v := by
  obtain ⟨path, hs⟩ := exists_spells_vertex h hp v hv
  have hfound : (m.findVertex? (m.qualifiedName (.vertex v))).isSome :=
    List.find?_isSome.mpr ⟨v, mem_vertexIds.mpr (vertex?_isSome_iff.mp hv), by simp [hs.qualifiedName?]⟩
  obtain ⟨w, hw⟩ := Option.isSome_iff_exists.mp hfound
  have hknown : (m.vertex? w).isSome := vertex?_isSome_iff.mpr (mem_vertexIds.mp (List.mem_of_find?_eq_some hw))
  have hname := List.find?_some hw
  rw [hw, Option.some.injEq]
  apply hk.vertex_eq_of_qualifiedName h hp hknown hv
  simp_all [Model.qualifiedName]

theorem Known.findRegion?_eq {r : RegionId} (hr : (m.region? r).isSome) :
    m.findRegion? (m.qualifiedName (.region r)) = some r := by
  obtain ⟨o, ho⟩ := exists_owner? hr
  obtain ⟨path, hs⟩ := exists_spells_region h hp ho
  have hfound : (m.findRegion? (m.qualifiedName (.region r))).isSome :=
    List.find?_isSome.mpr ⟨r, mem_regionIds.mpr hr, by simp [hs.qualifiedName?]⟩
  obtain ⟨q, hq⟩ := Option.isSome_iff_exists.mp hfound
  obtain ⟨s, hsq⟩ := exists_owner? (mem_regionIds.mp (List.mem_of_find?_eq_some hq))
  have hname := List.find?_some hq
  rw [hq, Option.some.injEq]
  apply hk.region_eq_of_qualifiedName h hp hsq ho
  simp_all [Model.qualifiedName]

theorem Known.identified : m.Identified where
  vertices hv hw heq := hk.vertex_eq_of_qualifiedName h hp hv hw heq
  regions hr hq heq := by
    obtain ⟨o, ho⟩ := exists_owner? hr
    obtain ⟨s, hs⟩ := exists_owner? hq
    exact hk.region_eq_of_qualifiedName h hp ho hs heq
  findVertex hv := hk.findVertex?_eq h hp hv
  findRegion hr := hk.findRegion?_eq h hp hr

end

/-! ## Regions of one state -/

theorem Identified.namesRegionsApart (h : m.Arena) (hi : m.Identified) : m.NamesRegionsApart := by
  intro o r q hr hq heq _
  obtain ⟨region, hreg, _⟩ := owner?_eq_some.mp hr
  obtain ⟨region', hreg', _⟩ := owner?_eq_some.mp hq
  have hor : m.Owns (.vertex o) (.region r) := hr
  have hoq : m.Owns (.vertex o) (.region q) := hq
  have hnames : m.names? (.region r) = m.names? (.region q) := by
    rw [names?_of_owns h hor, names?_of_owns h hoq, heq]
  apply hi.regions (by simp [hreg]) (by simp [hreg'])
  rw [qualifiedName, qualifiedName, qualifiedName?_eq, qualifiedName?_eq, hnames]

theorem NamesRegionsApart.namesRegions (h : m.Arena) (hd : ∀ v, (m.defaultsOf v).length ≤ 1)
    (ha : m.NamesRegionsApart) : m.NamesRegions := by
  intro v _
  refine List.Nodup.map_on (fun r hr q hq heq => ?_) (h.nodup_regionsOf v)
  have hro := h.mem_regionsOf.mp hr
  have hqo := h.mem_regionsOf.mp hq
  by_cases hdefault : m.elementName? (.region r) = some defaultRegionName
  · have hmem : ∀ s, m.owner? s = some v → m.elementName? (.region s) = some defaultRegionName →
        s ∈ m.defaultsOf v := by
      intro s hs hname
      obtain ⟨region, hreg, _⟩ := owner?_eq_some.mp hs
      refine List.mem_filter.mpr ⟨mem_regionIds_of_owner? hs, ?_⟩
      simp_all [elementName?]
    have hr := hmem r hro hdefault
    have hq := hmem q hqo (heq ▸ hdefault)
    obtain ⟨s, hs⟩ := List.length_eq_one_iff.mp (Nat.le_antisymm (hd v) (List.length_pos_of_mem hr))
    rw [hs, List.mem_singleton] at hr hq
    rw [hr, hq]
  · exact ha v r q hro hqo heq hdefault

theorem length_defaultsOf_le_one (h : m.Arena) (ho : m.Orderly) (hw : m.isWellFormed = true) (v : VertexId) :
    (m.defaultsOf v).length ≤ 1 := by
  by_contra hmany
  rw [not_le] at hmany
  obtain ⟨r, hr⟩ := List.exists_mem_of_length_pos (Nat.lt_trans Nat.zero_lt_one hmany)
  have howner : m.owner? r = some v := by simp_all [defaultsOf]
  obtain ⟨record, content, hrec, hform⟩ := isState_iff.mp (h.isState_of_owner? howner)
  have hbreaks : m.Breaks (.vertex v) (.duplicateDefaultRegion (m.defaultsOf v).length) :=
    ⟨by simp [content?_eq_some.mpr ⟨record, hrec, hform⟩], rfl, hmany⟩
  have hfault := ((lists_findings h ho).isWellFormed_iff (violations_eq h ho)).mp hw _ _ hbreaks
  cases hfault

end Model

namespace Machine

/-- Vertices never share a qualified name with regions. Vertices are told apart by theirs, and regions by theirs, where
no two regions of one state share a name; sharing the default name is found to be an error. -/
theorem Built.identified_iff {m : Machine μ δ} (hm : m.Built) (hp : m.NamesPlainly) (hw : m.isWellFormed = true) :
    (∀ v r, (m.vertex? v).isSome → (m.region? r).isSome →
      m.qualifiedName (.vertex v) ≠ m.qualifiedName (.region r)) ∧
      (m.Identified ↔ m.NamesRegionsApart) := by
  have h := hm.sound.arena
  refine ⟨fun v r hv hr => ?_, fun hi => hi.namesRegionsApart h, fun ha => ?_⟩
  · obtain ⟨o, ho⟩ := Model.exists_owner? hr
    exact Model.qualifiedName_apart h hp hv ho
  · have hregions := ha.namesRegions h (Model.length_defaultsOf_le_one h hm.orderly hw)
    exact (h.known hregions hm.orderly).identified h hp

def lodge : Machine Unit Unit := (ofName "lodge").edited
  [.addState (.state root) "cellar", .addRegion ⟨1⟩ "east", .addRegion ⟨1⟩ "west", .addState (.region ⟨1⟩) "lit",
    .addState (.region ⟨2⟩) "lit", .rename ⟨1⟩ "attic"]

theorem identified_lodge :
    lodge.qualifiedName (.vertex ⟨3⟩) = "lodge.default.attic.west.lit" ∧
      lodge.findVertex? "lodge.default.attic.west.lit" = some ⟨3⟩ ∧
      lodge.qualifiedName (.vertex ⟨3⟩) ≠ lodge.qualifiedName (.region ⟨2⟩) := by
  have hbuilt : lodge.Built := (Built.ofName "lodge").edited _
  obtain ⟨hapart, hiff⟩ := Built.identified_iff hbuilt (by decide +kernel) (by decide +kernel)
  have hi := hiff.mpr fun o r q hr hq heq _ =>
    Model.region_eq_of_name hbuilt.sound.arena (by decide +kernel) hr hq heq
  have hname : lodge.qualifiedName (.vertex ⟨3⟩) = "lodge.default.attic.west.lit" := by decide +kernel
  refine ⟨hname, ?_, hapart _ _ (by decide +kernel) (by decide +kernel)⟩
  rw [← hname]
  exact hi.findVertex (by decide +kernel)

/-- Both regions of the root are named alike, and so is a state in each of them. -/
def echo : Machine Unit Unit := (ofName "m").edited
  [.addRegion root "part", .addRegion root "part", .addState (.region ⟨0⟩) "on", .addState (.region ⟨1⟩) "on"]

theorem not_identified_echo :
    ¬ ∀ m : Machine Unit Unit, m.Built → m.NamesPlainly → m.isWellFormed = true → m.Identified := by
  intro hall
  have hi := hall echo ((Built.ofName "m").edited _) (by decide +kernel) (by decide +kernel)
  have heq := hi.vertices (v := ⟨1⟩) (w := ⟨2⟩) (by decide +kernel) (by decide +kernel) (by decide +kernel)
  cases heq

end Machine

end Statechart
