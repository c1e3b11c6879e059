import Mathlib.Data.Nat.PSub
import Mathlib.Order.Bounds.Defs
import Statechart.Proofs.Chains
import Statechart.Proofs.Construction

/-!
# The last place that two chains share

The chains of two vertices part at the last place at which both stand in one region, or both at the root. Before it the
chains agree, and the regions above what stands there are those above both vertices. To find it no list is read beyond
its end and nothing is taken from zero.
-/

namespace Statechart

variable {μ δ : Type}

namespace Model

variable {m : Model μ δ} {v w x u : VertexId}

/-! ## Where the chains part -/

/-- At this place both chains have a vertex, and the two stand in one region, or in none. -/
def Abreast (m : Model μ δ) (x u : VertexId) (j : Nat) : Prop :=
  ∃ v w, (m.chain x)[j]? = some v ∧ (m.chain u)[j]? = some w ∧ m.parent? v = m.parent? w

section
variable (h : m.Arena)
include h

theorem le_sharedLength_of_parent {j : Nat} (hx : (m.vertex? x).isSome) (hu : (m.vertex? u).isSome)
    (hv : (m.chain x)[j]? = some v) (hw : (m.chain u)[j]? = some w) (hp : m.parent? v = m.parent? w) :
    j ≤ sharedLength (m.chain x) (m.chain u) := by
  have hlength := length_chain_of_getElem? h hx hv
  rcases h.root_or_owner (vertex?_isSome_of_mem_chain h x hx (List.mem_of_getElem? hv)) with rfl | ⟨r, o, hr, ho, _⟩
  · rw [chain_root h, List.length_singleton] at hlength
    omega
  · have hstart : ∀ {y v}, (m.vertex? y).isSome → (m.chain y)[j]? = some v → m.parent? v = some r →
        ∃ rest, m.chain y = m.chain o ++ rest := fun {y v} hy hv hp => by
      have hchain := chain_of_getElem? h y hy hv
      rw [chain_eq h hp ho] at hchain
      refine ⟨v :: (m.chain y).drop (j + 1), ?_⟩
      rw [List.append_cons, hchain, List.take_append_drop]
    obtain ⟨rest, hrest⟩ := hstart hx hv hr
    obtain ⟨rest', hrest'⟩ := hstart hu hw (hp.symm.trans hr)
    rw [chain_eq h hr ho, List.length_append, List.length_singleton] at hlength
    rw [hrest, hrest', sharedLength_append]
    omega

theorem isGreatest_divergence (hx : (m.vertex? x).isSome) (hu : (m.vertex? u).isSome) :
    IsGreatest {j | m.Abreast x u j} (m.divergence (m.chain x) (m.chain u)) := by
  obtain ⟨hd, he⟩ := divergence_lt (m := m) x u
  refine ⟨⟨_, _, List.getElem?_eq_getElem hd, List.getElem?_eq_getElem he,
    divergence_parent (List.getElem?_eq_getElem hd) (List.getElem?_eq_getElem he)⟩, ?_⟩
  rintro j ⟨v, w, hv, hw, hp⟩
  have hle := le_sharedLength_of_parent h hx hu hv hw hp
  rcases divergence_cases (m := m) (m.chain x) (m.chain u) with ⟨_, _, _, _, _, heq⟩ | ⟨hparents, heq⟩
  · omega
  · have hne : j ≠ sharedLength (m.chain x) (m.chain u) := by
      rintro rfl
      exact hparents v w hv hw hp
    omega

end

theorem divergence_le_sharedLength (a b : List VertexId) : m.divergence a b ≤ sharedLength a b := by
  rcases divergence_cases (m := m) a b with ⟨_, _, _, _, _, heq⟩ | ⟨_, heq⟩ <;> omega

theorem take_eq_of_le_sharedLength {a b : List VertexId} {j : Nat} (hj : j ≤ sharedLength a b) :
    a.take j = b.take j := by
  refine List.ext_getElem? fun k => ?_
  by_cases hk : k < j
  · rw [List.getElem?_take_of_lt hk, List.getElem?_take_of_lt hk]
    exact getElem?_of_lt_sharedLength (Nat.lt_of_lt_of_le hk hj)
  · rw [List.getElem?_take_eq_none (by omega), List.getElem?_take_eq_none (by omega)]

/-! ## Regions above both ends -/

section
variable (h : m.Arena)
include h

theorem above_divergence_iff {d : VertexId} (hx : (m.vertex? x).isSome) (hu : (m.vertex? u).isSome)
    (hd : (m.chain x)[m.divergence (m.chain x) (m.chain u)]? = some d) (r : RegionId) :
    m.Above r d ↔ m.Above r x ∧ m.Above r u := by
  constructor
  · intro hr
    obtain ⟨_, he⟩ := divergence_lt (m := m) x u
    have hparent := divergence_parent hd (List.getElem?_eq_getElem he)
    exact ⟨above_of_ancestor h hx (List.mem_of_getElem? hd) hr,
      above_of_ancestor h hu (List.getElem_mem he) (above_of_parent_eq h hparent hr)⟩
  · rintro ⟨hrx, hru⟩
    obtain ⟨_, _, _, ho, _⟩ := exists_chain_of_above h x hx hrx
    exact above_of_divergence h ho hrx hru hd

end

/-! ## Nothing is missing -/

def chain? (m : Model μ δ) (v : VertexId) : Option (List VertexId) :=
  (m.ancestors? v).map (·.filterMap fun | .vertex w => some w | .region _ => none)

/-- The place where two lists part, found step by step. There is no answer if on the way a list is read beyond its end,
a vertex is asked for that the model does not have, or one is taken from zero. -/
def divergence? (m : Model μ δ) (source target : List VertexId) : Option Nat := do
  let shortest := min source.length target.length
  let shared := ((source.zip target).takeWhile fun (v, w) => v = w).length
  if shared = shortest then
    shortest.ppred
  else
    let v ← m.vertex? (← source[shared]?)
    let w ← m.vertex? (← target[shared]?)
    if v.parent ≠ w.parent ∧ 0 < shared then shared.ppred else some shared

theorem chain?_eq (h : m.Arena) (hv : (m.vertex? v).isSome) : m.chain? v = some (m.chain v) := by
  simp only [chain?, ancestors?, path?_isSome h hv, Option.map_some, chain]
  congr 1
  induction m.path v with
  | nil => rfl
  | cons p path ih => simpa using ih

theorem length_takeWhile_zip (a b : List VertexId) :
    ((a.zip b).takeWhile fun (v, w) => v = w).length = sharedLength a b := by
  induction a generalizing b with
  | nil => rfl
  | cons v a ih =>
    cases b with
    | nil => rfl
    | cons w b =>
      by_cases hvw : v = w
      · simp [sharedLength, hvw, ih]
      · simp [sharedLength, hvw]

theorem divergence?_of_getElem? {a b : List VertexId} {record record' : Vertex μ δ}
    (hv : a[sharedLength a b]? = some v) (hw : b[sharedLength a b]? = some w) (hrec : m.vertex? v = some record)
    (hrec' : m.vertex? w = some record') : m.divergence? a b =
      if m.parent? v ≠ m.parent? w ∧ 0 < sharedLength a b then (sharedLength a b).ppred
      else some (sharedLength a b) := by
  obtain ⟨ha, _⟩ := List.getElem?_eq_some_iff.mp hv
  obtain ⟨hb, _⟩ := List.getElem?_eq_some_iff.mp hw
  have hne : sharedLength a b ≠ min a.length b.length := by omega
  simp [divergence?, length_takeWhile_zip, hne, hv, hw, hrec, hrec', parent?]

theorem divergence?_eq (h : m.Arena) (hx : (m.vertex? x).isSome) (hu : (m.vertex? u).isSome) :
    m.divergence? (m.chain x) (m.chain u) = some (m.divergence (m.chain x) (m.chain u)) := by
  have hpos := sharedLength_chain_pos (m := m) x u
  have hpred := Nat.ppred_eq_pred hpos
  have hrecord : ∀ {y v j}, (m.vertex? y).isSome → (m.chain y)[j]? = some v → ∃ record, m.vertex? v = some record :=
    fun {y v j} hy hv => Option.isSome_iff_exists.mp (vertex?_isSome_of_mem_chain h y hy (List.mem_of_getElem? hv))
  rcases divergence_cases (m := m) (m.chain x) (m.chain u) with ⟨v, w, hv, hw, hp, heq⟩ | ⟨hparents, heq⟩
  · obtain ⟨record, hrec⟩ := hrecord hx hv
    obtain ⟨record', hrec'⟩ := hrecord hu hw
    rw [divergence?_of_getElem? hv hw hrec hrec', heq, if_neg fun hne => hne.1 hp]
  · rw [heq]
    by_cases hend : sharedLength (m.chain x) (m.chain u) = min (m.chain x).length (m.chain u).length
    · -- One chain is the start of the other.
      simp only [divergence?, length_takeWhile_zip, if_pos hend]
      rw [← hend]
      exact hpred
    · have hle := sharedLength_le (m.chain x) (m.chain u)
      have hv := List.getElem?_eq_getElem (l := m.chain x) (i := sharedLength (m.chain x) (m.chain u)) (by omega)
      have hw := List.getElem?_eq_getElem (l := m.chain u) (i := sharedLength (m.chain x) (m.chain u)) (by omega)
      obtain ⟨record, hrec⟩ := hrecord hx hv
      obtain ⟨record', hrec'⟩ := hrecord hu hw
      rw [divergence?_of_getElem? hv hw hrec hrec', if_pos ⟨hparents _ _ hv hw, hpos⟩]
      exact hpred

end Model

namespace Machine

/-- The chains of two vertices, whatever the two are to each other, part at the last place at which both have a vertex
of one region, or the root. The place is found with nothing missing on the way, the chains agree before it, and the
regions above the vertices that stand there are those above both ends. -/
theorem Built.parts_at_deepest {m : Machine μ δ} (hm : m.Built) {x u : VertexId} (hx : (m.vertex? x).isSome)
    (hu : (m.vertex? u).isSome) :
    m.chain? x = some (m.chain x) ∧ m.chain? u = some (m.chain u) ∧
      0 < Model.sharedLength (m.chain x) (m.chain u) ∧
      ∃ j d e, m.divergence? (m.chain x) (m.chain u) = some j ∧ m.divergence (m.chain x) (m.chain u) = j ∧
        IsGreatest {j | m.Abreast x u j} j ∧ (m.chain x)[j]? = some d ∧ (m.chain u)[j]? = some e ∧
        (m.chain x).take j = (m.chain u).take j ∧ ∀ r, m.Above r d ↔ m.Above r x ∧ m.Above r u := by
  have h := hm.sound.arena
  obtain ⟨hlt, hlt'⟩ := Model.divergence_lt (m := m.toModel) x u
  have hd := List.getElem?_eq_getElem hlt
  refine ⟨Model.chain?_eq h hx, Model.chain?_eq h hu, Model.sharedLength_chain_pos x u, _, _, _,
    Model.divergence?_eq h hx hu, rfl, Model.isGreatest_divergence h hx hu, hd, List.getElem?_eq_getElem hlt', ?_, ?_⟩
  · exact Model.take_eq_of_le_sharedLength (Model.divergence_le_sharedLength _ _)
  · exact Model.above_divergence_iff h hx hu hd

/-- A journey has two regions, and in one of them a state that has a state of its own. -/
def train : Machine String Unit := (ofName "m").edited
  [.addState (.state root) "journey", .addRegion ⟨1⟩ "engine", .addRegion ⟨1⟩ "cabin",
    .addPseudoState (.region ⟨1⟩) "start" .initial, .addState (.region ⟨2⟩) "compartment",
    .addState (.state ⟨3⟩) "berth", .addState (.region ⟨2⟩) "corridor"]

theorem parts_at_deepest_train : train.divergence? (train.chain ⟨2⟩) (train.chain ⟨4⟩) = some 1 ∧
    IsGreatest {j | train.Abreast ⟨2⟩ ⟨4⟩ j} 1 ∧ (train.chain ⟨2⟩)[1]? = some ⟨1⟩ ∧
    (train.chain ⟨4⟩)[1]? = some ⟨1⟩ ∧
    ∀ r, train.Above r ⟨1⟩ ↔ train.Above r ⟨2⟩ ∧ train.Above r ⟨4⟩ := by
  have hbuilt : train.Built := (Built.ofName "m").edited _
  obtain ⟨_, _, _, j, d, e, hchecked, hj, hgreatest, hd, he, _, habove⟩ :=
    Built.parts_at_deepest hbuilt (x := ⟨2⟩) (u := ⟨4⟩) (by decide +kernel) (by decide +kernel)
  obtain rfl : j = 1 := by
    rw [← hj]
    decide +kernel
  obtain rfl : d = ⟨1⟩ := Option.some.inj (hd.symm.trans (by decide +kernel))
  obtain rfl : e = ⟨1⟩ := Option.some.inj (he.symm.trans (by decide +kernel))
  exact ⟨hchecked, hgreatest, hd, he, habove⟩

-- Two vertices of one region, one vertex within the other, and a vertex with itself.
example : train.divergence (train.chain ⟨3⟩) (train.chain ⟨5⟩) = 2 ∧
    train.divergence (train.chain ⟨4⟩) (train.chain ⟨3⟩) = 2 ∧
    train.divergence (train.chain ⟨4⟩) (train.chain ⟨4⟩) = 3 := by decide +kernel

end Machine

end Statechart
