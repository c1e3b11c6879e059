import Statechart.Compile
import Statechart.Proofs.Ancestry

/-!
# Chains and where they part

The chain of a vertex leads from the root down to it. A transition leaves and enters from the place where the chains of
its source and target part; above that place the chains agree, and beneath it no region is above both ends.
-/

namespace Statechart

namespace Model

variable {μ δ : Type} {m : Model μ δ}

/-! ## Chains -/

/-- The list goes from owner to member, and ends with `u`. -/
inductive Descent (m : Model μ δ) : List VertexId → VertexId → Prop
  | last (u : VertexId) : Descent m [u] u
  | step {v w u : VertexId} {r : RegionId} {rest : List VertexId} (hw : m.parent? w = some r) (hr : m.owner? r = some v) :
      Descent m (w :: rest) u → Descent m (v :: w :: rest) u

theorem Descent.snoc {l : List VertexId} {o v : VertexId} {r : RegionId} (hl : m.Descent l o)
    (hv : m.parent? v = some r) (ho : m.owner? r = some o) : m.Descent (l ++ [v]) v := by
  induction hl with
  | last u => exact .step hv ho (.last v)
  | step hw hr _ ih => exact .step hw hr (ih ho)

theorem Descent.suffix {l₁ l₂ : List VertexId} {u : VertexId} (hl : m.Descent (l₁ ++ l₂) u) (hne : l₂ ≠ []) :
    m.Descent l₂ u := by
  induction l₁ with
  | nil => exact hl
  | cons v l₁ ih =>
    refine ih ?_
    cases hc : l₁ ++ l₂ with
    | nil => simp_all
    | cons w rest =>
      rw [List.cons_append, hc] at hl
      cases hl with
      | step _ _ hrest => exact hrest

theorem Descent.above (h : m.Arena) {w u : VertexId} {rest : List VertexId} {r : RegionId}
    (hl : m.Descent (w :: rest) u) (hw : m.parent? w = some r) : m.Above r u := by
  generalize hlist : w :: rest = l at hl
  induction hl generalizing w rest r with
  | last u => cases hlist; exact above_parent h hw
  | @step v w' u r' rest' hw' hr' hrest ih =>
    cases hlist
    have hu := ih hw' rfl
    exact above_trans h (Or.inr ⟨v, hr', above_parent h hw⟩) u (vertex?_isSome_of_above hu) hu

theorem Descent.around (h : m.Arena) {v u w : VertexId} {rest : List VertexId} {r : RegionId}
    (hl : m.Descent (v :: rest) u) (hw : ∀ q, m.parent? u = some q → m.Above q w) (hv : m.parent? v = some r) :
    m.Above r w := by
  have hr := hl.above h hv
  rcases h.root_or_owner (vertex?_isSome_of_above hr) with rfl | ⟨q, _, hp, _, _⟩
  · exact absurd hr (not_above_root h r)
  · have hqw := hw q hp
    exact above_trans h ((above_iff h hp r).mp hr) w (vertex?_isSome_of_above hqw) hqw

section
variable (h : m.Arena)
include h

theorem chain_root : m.chain root = [root] := by simp [chain, path_root h]

theorem chain_eq {v o : VertexId} {r : RegionId} (hv : m.parent? v = some r) (ho : m.owner? r = some o) :
    m.chain v = m.chain o ++ [v] := by simp [chain, path_eq h hv ho]

theorem descent_chain (v : VertexId) (hv : (m.vertex? v).isSome) : m.Descent (m.chain v) v := by
  refine h.induction (motive := fun v => m.Descent (m.chain v) v) ?_ ?_ v hv
  · rw [chain_root h]; exact .last root
  · intro v r o hp ho ih; rw [chain_eq h hp ho]; exact ih.snoc hp ho

theorem descent_of_append {e u : VertexId} {l rest : List VertexId} (hu : (m.vertex? u).isSome)
    (hl : m.chain u = l ++ e :: rest) : m.Descent (e :: rest) u := by
  have := descent_chain h u hu
  rw [hl] at this
  exact this.suffix (by simp)

theorem descent_of_drop {n : Nat} {e u : VertexId} {rest : List VertexId} (hu : (m.vertex? u).isSome)
    (hl : (m.chain u).drop n = e :: rest) : m.Descent (e :: rest) u := by
  refine descent_of_append h hu (l := (m.chain u).take n) ?_
  rw [← hl, List.take_append_drop]

theorem chain_of_getElem? {j : Nat} {c : VertexId} (v : VertexId) (hv : (m.vertex? v).isSome) :
    (m.chain v)[j]? = some c → m.chain c = (m.chain v).take (j + 1) := by
  refine h.induction (motive := fun v => (m.chain v)[j]? = some c → m.chain c = (m.chain v).take (j + 1)) ?_ ?_ v hv
  · intro hc
    rw [chain_root h] at hc ⊢
    cases j with
    | zero => simp only [List.getElem?_cons_zero, Option.some.injEq] at hc; subst hc; simp [chain_root h]
    | succ j => simp at hc
  · intro v r o hp ho ih hc
    rw [chain_eq h hp ho] at hc ⊢
    rcases Nat.lt_or_ge j (m.chain o).length with hj | hj
    · rw [List.getElem?_append_left hj] at hc
      rw [List.take_append_of_le_length (by omega)]
      exact ih hc
    · rw [List.getElem?_append_right hj] at hc
      obtain ⟨rfl, rfl⟩ : j = (m.chain o).length ∧ v = c := by
        rcases Nat.lt_or_ge 0 (j - (m.chain o).length) with h0 | h0
        · simp [show j - (m.chain o).length ≠ 0 by omega] at hc
        · simp [show j - (m.chain o).length = 0 by omega] at hc
          exact ⟨by omega, hc⟩
      rw [chain_eq h hp ho, List.take_of_length_le (by simp)]

theorem length_chain_of_getElem? {j : Nat} {c v : VertexId} (hv : (m.vertex? v).isSome)
    (hc : (m.chain v)[j]? = some c) : (m.chain c).length = j + 1 := by
  obtain ⟨hj, _⟩ := List.getElem?_eq_some_iff.mp hc
  rw [chain_of_getElem? h v hv hc, List.length_take]; omega

theorem vertex?_isSome_of_mem_chain {c : VertexId} (v : VertexId) (hv : (m.vertex? v).isSome) :
    c ∈ m.chain v → (m.vertex? c).isSome := by
  refine h.induction (motive := fun v => c ∈ m.chain v → (m.vertex? c).isSome) ?_ ?_ v hv
  · intro hc; rw [chain_root h, List.mem_singleton] at hc; subst hc; exact h.vertex?_root_isSome
  · intro v r o hp ho ih hc
    rw [chain_eq h hp ho] at hc
    rcases List.mem_append.mp hc with hc | hc
    · exact ih hc
    · rw [List.mem_singleton] at hc; subst hc; exact vertex?_isSome_of_parent? hp

theorem exists_chain_of_above {q : RegionId} (v : VertexId) (hv : (m.vertex? v).isSome) :
    m.Above q v → ∃ c w rest, m.owner? q = some c ∧ m.parent? w = some q ∧ m.chain v = m.chain c ++ w :: rest := by
  refine h.induction (motive := fun v => m.Above q v → ∃ c w rest, m.owner? q = some c ∧ m.parent? w = some q ∧
    m.chain v = m.chain c ++ w :: rest) ?_ ?_ v hv
  · intro hq; exact absurd hq (not_above_root h q)
  · intro v r o hp ho ih hq
    rcases (above_iff h hp q).mp hq with rfl | ⟨o', ho', hqo⟩
    · exact ⟨o, v, [], ho, hp, by rw [chain_eq h hp ho]⟩
    · rw [ho] at ho'; cases ho'
      obtain ⟨c, w, rest, hc, hw, hch⟩ := ih hqo
      exact ⟨c, w, rest ++ [v], hc, hw, by rw [chain_eq h hp ho, hch]; simp⟩

theorem above_of_mem_chain {c : VertexId} {r : RegionId} (hc : m.parent? c = some r) (v : VertexId)
    (hv : (m.vertex? v).isSome) : c ∈ m.chain v → m.Above r v := by
  refine h.induction (motive := fun v => c ∈ m.chain v → m.Above r v) ?_ ?_ v hv
  · intro hm; rw [chain_root h, List.mem_singleton] at hm; exact absurd hm (h.ne_root_of_parent? hc)
  · intro v p o hp ho ih hm
    rw [chain_eq h hp ho] at hm
    rcases List.mem_append.mp hm with hm | hm
    · exact above_of_owner h hp ho (ih hm)
    · rw [List.mem_singleton] at hm; subst hm; exact above_parent h hc

end

/-! ## Ancestors on a chain -/

section
variable (h : m.Arena)
include h

theorem above_of_ancestor {d v : VertexId} {q : RegionId} (hv : (m.vertex? v).isSome) (hd : d ∈ m.chain v)
    (hq : m.Above q d) : m.Above q v := by
  rcases h.root_or_owner (vertex?_isSome_of_above hq) with rfl | ⟨p, _, hp, _, _⟩
  · exact absurd hq (not_above_root h q)
  · exact above_trans h ((above_iff h hp q).mp hq) v hv (above_of_mem_chain h hp v hv hd)

theorem mem_chain_self (v : VertexId) (hv : (m.vertex? v).isSome) : v ∈ m.chain v := by
  rcases h.root_or_owner hv with rfl | ⟨r, o, hp, ho, _⟩
  · simp [chain_root h]
  · simp [chain_eq h hp ho]

theorem isAncestor_iff {x v : VertexId} (hv : (m.vertex? v).isSome) : m.isAncestor x v = true ↔ x ∈ m.chain v := by
  simp only [isAncestor, isAncestor?, ancestors?, path?_isSome h hv, Option.map_some, Option.getD_some, chain,
    List.contains_eq_mem, decide_eq_true_eq, List.mem_cons, Element.vertex.injEq, List.mem_flatMap, List.mem_map,
    List.not_mem_nil, or_false, reduceCtorEq, false_or]
  exact ⟨Or.imp id fun ⟨e, he, hx⟩ => ⟨e, he, hx.symm⟩, Or.imp id fun ⟨e, he, hx⟩ => ⟨e, he, hx.symm⟩⟩

theorem isState_of_mem_chain {x : VertexId} (v : VertexId) (hv : (m.vertex? v).isSome) :
    x ∈ m.chain v → x ≠ v → m.isState x = true := by
  refine h.induction (motive := fun v => x ∈ m.chain v → x ≠ v → m.isState x = true) ?_ ?_ v hv
  · intro hx hne; rw [chain_root h, List.mem_singleton] at hx; exact absurd hx hne
  · intro v r o hp ho ih hx hne
    rw [chain_eq h hp ho] at hx
    rcases List.mem_append.mp hx with hx | hx
    · by_cases hxo : x = o
      · subst hxo; exact h.isState_of_owner? ho
      · exact ih hx hxo
    · exact absurd (List.mem_singleton.mp hx) hne

theorem length_chain_lt_of_above {q : RegionId} {s : VertexId} (hq : m.owner? q = some s) {v : VertexId}
    (hv : (m.vertex? v).isSome) (ha : m.Above q v) : s ∈ m.chain v ∧ (m.chain s).length < (m.chain v).length := by
  obtain ⟨c, w, rest, hc, _, hch⟩ := exists_chain_of_above h v hv ha
  rw [hq] at hc; cases hc
  rw [hch]
  refine ⟨List.mem_append_left _ (mem_chain_self h s ?_), by simp⟩
  exact vertex?_isSome_of_isState (h.isState_of_owner? hq)

theorem above_unique {o w : VertexId} {q q' : RegionId} (hq : m.owner? q = some o) (hq' : m.owner? q' = some o)
    (hw : m.Above q w) (hw' : m.Above q' w) : q = q' := by
  have hknown := vertex?_isSome_of_above hw
  obtain ⟨_, x, rest, hc, hx, hch⟩ := exists_chain_of_above h w hknown hw
  obtain ⟨_, x', rest', hc', hx', hch'⟩ := exists_chain_of_above h w hknown hw'
  rw [hq] at hc; rw [hq'] at hc'
  cases hc; cases hc'
  rw [hch] at hch'
  have hhead := List.append_cancel_left hch'
  cases hhead
  rw [hx] at hx'; exact Option.some.inj hx'

theorem not_above_owner {r : RegionId} {o : VertexId} (ho : m.owner? r = some o) : ¬ m.Above r o := fun ha =>
  absurd (index_lt_of_above h ho o (vertex?_isSome_of_above ha) ha) (by omega)

omit h in
theorem exists_append_below {x : VertexId} {l : List VertexId} (hx : x ∈ l) : ∃ l', l = l' ++ x :: below x l := by
  induction l with
  | nil => cases hx
  | cons y l ih =>
    by_cases hy : y = x
    · subst hy; exact ⟨[], by simp [below]⟩
    · obtain ⟨l', hl⟩ := ih ((List.mem_cons.mp hx).resolve_left (Ne.symm hy))
      have hbelow : below x (y :: l) = below x l := by simp [below, hy]
      exact ⟨y :: l', by rw [hbelow, List.cons_append, ← hl]⟩

theorem chain_of_append {x v : VertexId} {l rest : List VertexId} (hv : (m.vertex? v).isSome)
    (hl : m.chain v = l ++ x :: rest) : m.chain x = l ++ [x] := by
  have hget : (m.chain v)[l.length]? = some x := by rw [hl]; simp
  rw [chain_of_getElem? h v hv hget, hl, List.take_append, List.take_of_length_le (Nat.le_succ l.length)]
  simp

theorem chain_append_below {x v : VertexId} (hv : (m.vertex? v).isSome) (hx : x ∈ m.chain v) :
    m.chain v = m.chain x ++ below x (m.chain v) := by
  obtain ⟨l, hl⟩ := exists_append_below hx
  rw [chain_of_append h hv hl, List.append_assoc]
  exact hl

theorem not_above_of_mem_below {x v c : VertexId} {q : RegionId} (hx : (m.vertex? x).isSome)
    (hv : (m.vertex? v).isSome) (hxv : x ∈ m.chain v) (hc : c ∈ below x (m.chain v)) (hq : m.owner? q = some c) :
    ¬ m.Above q x := by
  intro ha
  have hlt := (length_chain_lt_of_above h hq hx ha).2
  obtain ⟨j, hj⟩ := List.mem_iff_getElem?.mp hc
  have hget : (m.chain v)[(m.chain x).length + j]? = some c := by
    rw [chain_append_below h hv hxv, List.getElem?_append_right (by omega)]
    simpa using hj
  have := length_chain_of_getElem? h hv hget
  omega

end

/-! ## The order of vertices -/

def InOne (m : Model μ δ) (rs : List RegionId) (v : VertexId) : Prop := ∃ r ∈ rs, m.Above r v

section
variable (h : m.Arena)
include h

theorem index_le_of_mem_chain {x : VertexId} (v : VertexId) (hv : (m.vertex? v).isSome) :
    x ∈ m.chain v → x.index ≤ v.index := by
  refine h.induction (motive := fun v => x ∈ m.chain v → x.index ≤ v.index) ?_ ?_ v hv
  · intro hx; rw [chain_root h, List.mem_singleton] at hx; exact Nat.le_of_eq (congrArg _ hx)
  · intro v r o hp ho ih hx
    have hlt := h.owner?_lt hp ho
    rw [chain_eq h hp ho] at hx
    rcases List.mem_append.mp hx with hx | hx
    · exact Nat.le_trans (ih hx) (Nat.le_of_lt hlt)
    · exact Nat.le_of_eq (congrArg _ (List.mem_singleton.mp hx))

theorem isAncestor_refl {v : VertexId} (hv : (m.vertex? v).isSome) : m.isAncestor v v = true :=
  (isAncestor_iff h hv).mpr (mem_chain_self h v hv)

theorem isAncestor_root {v : VertexId} (hv : (m.vertex? v).isSome) : m.isAncestor root v = true :=
  (isAncestor_iff h hv).mpr (by simp [chain])

omit h in
theorem vertex?_isSome_of_isAncestor {x v : VertexId} (hx : m.isAncestor x v = true) : (m.vertex? v).isSome := by
  cases hv : m.vertex? v with
  | some record => rfl
  | none =>
    have hpath : m.path? v = none := by unfold path?; cases m.vertices.size <;> simp [pathWithin?, hv]
    simp [isAncestor, isAncestor?, ancestors?, hpath] at hx

theorem isAncestor_trans {x v w : VertexId} (hx : m.isAncestor x v = true) (hv : m.isAncestor v w = true) :
    m.isAncestor x w = true := by
  have hv' := vertex?_isSome_of_isAncestor hx
  have hw := vertex?_isSome_of_isAncestor hv
  rw [isAncestor_iff h hv'] at hx
  rw [isAncestor_iff h hw] at hv ⊢
  rw [chain_append_below h hw hv]
  exact List.mem_append_left _ hx

theorem isAncestor_antisymm {x v : VertexId} (hx : m.isAncestor x v = true) (hv : m.isAncestor v x = true) :
    x = v := by
  have hv' := vertex?_isSome_of_isAncestor hx
  have hx' := vertex?_isSome_of_isAncestor hv
  have h₁ := index_le_of_mem_chain h v hv' ((isAncestor_iff h hv').mp hx)
  have h₂ := index_le_of_mem_chain h x hx' ((isAncestor_iff h hx').mp hv)
  cases x; cases v
  simp only [VertexId.mk.injEq]
  exact Nat.le_antisymm h₁ h₂

theorem above_of_isAncestor {v w : VertexId} {r : RegionId} (hv : m.parent? v = some r)
    (ha : m.isAncestor v w = true) : m.Above r w := by
  have hknown := vertex?_isSome_of_isAncestor ha
  exact above_of_mem_chain h hv w hknown ((isAncestor_iff h hknown).mp ha)

theorem isAncestor_of_above {v w : VertexId} {q : RegionId} (hq : m.owner? q = some v) (ha : m.Above q w) :
    m.isAncestor v w = true := by
  have hknown := vertex?_isSome_of_above ha
  exact (isAncestor_iff h hknown).mpr (length_chain_lt_of_above h hq hknown ha).1

theorem isAncestor_iff_inOne {v w : VertexId} (hw : (m.vertex? w).isSome) :
    m.isAncestor v w = true ↔ w = v ∨ m.InOne (m.regionsOf v) w := by
  rw [isAncestor_iff h hw]
  constructor
  · intro hv
    simp only [chain, List.mem_cons, List.mem_map] at hv
    rcases hv with rfl | ⟨⟨r, v⟩, hm, rfl⟩
    · exact root_or_above h hw
    · exact (of_mem_path h w hw hm).2.imp Eq.symm fun ⟨q, hq, ha⟩ => ⟨q, h.mem_regionsOf.mpr hq, ha⟩
  · rintro (rfl | ⟨q, hq, ha⟩)
    · exact mem_chain_self h w hw
    · exact (length_chain_lt_of_above h (h.mem_regionsOf.mp hq) hw ha).1

end

/-! ## Activity along a chain -/

section
variable (h : m.Arena) {i : Instance δ}
include h

theorem isActive_of_mem_chain {v x : VertexId} (hv : (m.vertex? v).isSome) (ha : m.isActive i v = true)
    (hx : x ∈ m.chain v) : m.isActive i x = true := by
  simp only [chain, List.mem_cons, List.mem_map] at hx
  rcases hx with rfl | ⟨⟨r, x⟩, hm, rfl⟩
  · exact isActive_root h i
  · obtain ⟨_, rfl | ⟨q, hq, hqv⟩⟩ := of_mem_path h v hv hm
    · exact ha
    · exact isActive_of_above h hq v hv ha hqv

theorem isActive_of_recorded {s u v o : VertexId} {l rest : List VertexId} {r : RegionId}
    (hl : m.Descent (s :: (l ++ v :: rest)) u) (hs : m.isActive i s = true)
    (hrecorded : ∀ w ∈ l, ∀ q, m.parent? w = some q → i.current? q = some w) (hv : m.parent? v = some r)
    (ho : m.owner? r = some o) : m.isActive i o = true := by
  induction l generalizing s with
  | nil =>
    cases hl with
    | step hv' hr' _ =>
      rw [hv] at hv'; cases hv'
      rw [ho] at hr'; cases hr'; exact hs
  | cons w l ih =>
    cases hl with
    | step hw hq hrest =>
      refine ih hrest ((isActive_step h hw hq).mpr ⟨hrecorded w (by simp) _ hw, hs⟩) fun w' hw' => ?_
      exact hrecorded w' (List.mem_cons_of_mem w hw')

end

/-! ## Shared starts -/

theorem sharedLength_append (l a b : List VertexId) : sharedLength (l ++ a) (l ++ b) = l.length + sharedLength a b := by
  induction l with
  | nil => simp
  | cons v l ih => simp [sharedLength, ih]; omega

theorem sharedLength_le (a b : List VertexId) : sharedLength a b ≤ a.length ∧ sharedLength a b ≤ b.length := by
  induction a generalizing b with
  | nil => simp [sharedLength]
  | cons v a ih =>
    cases b with
    | nil => simp [sharedLength]
    | cons w b =>
      simp only [sharedLength]
      split
      · have := ih b; simp; omega
      · simp

theorem getElem?_of_lt_sharedLength {a b : List VertexId} {j : Nat} (hj : j < sharedLength a b) : a[j]? = b[j]? := by
  induction a generalizing b j with
  | nil => simp [sharedLength] at hj
  | cons v a ih =>
    cases b with
    | nil => simp [sharedLength] at hj
    | cons w b =>
      simp only [sharedLength] at hj
      split at hj
      · rename_i hvw; subst hvw
        cases j with
        | zero => rfl
        | succ j => simpa using ih (by omega)
      · omega

theorem sharedLength_chain_pos (x u : VertexId) : 0 < sharedLength (m.chain x) (m.chain u) := by
  simp [chain, sharedLength]

/-! ## Divergence -/

/-- The lists part after what they share, if that is where two vertices of one region follow, or else just before. -/
theorem divergence_cases (a b : List VertexId) :
    (∃ v w, a[sharedLength a b]? = some v ∧ b[sharedLength a b]? = some w ∧ m.parent? v = m.parent? w ∧
      m.divergence a b = sharedLength a b) ∨
    (∀ v w, a[sharedLength a b]? = some v → b[sharedLength a b]? = some w → m.parent? v ≠ m.parent? w) ∧
      m.divergence a b = sharedLength a b - 1 := by
  have hle := sharedLength_le a b
  cases ha : a[sharedLength a b]? with
  | none =>
    have := List.getElem?_eq_none_iff.mp ha
    refine Or.inr ⟨by simp, ?_⟩
    simp only [divergence, ha]; omega
  | some v =>
    cases hb : b[sharedLength a b]? with
    | none =>
      have := List.getElem?_eq_none_iff.mp hb
      refine Or.inr ⟨by simp, ?_⟩
      simp only [divergence, ha, hb]; omega
    | some w =>
      by_cases hp : m.parent? v = m.parent? w
      · exact Or.inl ⟨v, w, rfl, rfl, hp, by simp [divergence, ha, hb, hp]⟩
      · exact Or.inr ⟨by rintro _ _ ⟨⟩ ⟨⟩; exact hp, by simp [divergence, ha, hb, hp]⟩

theorem divergence_lt (x u : VertexId) :
    m.divergence (m.chain x) (m.chain u) < (m.chain x).length ∧
      m.divergence (m.chain x) (m.chain u) < (m.chain u).length := by
  have hpos := sharedLength_chain_pos (m := m) x u
  have hle := sharedLength_le (m.chain x) (m.chain u)
  rcases divergence_cases (m := m) (m.chain x) (m.chain u) with ⟨v, w, hv, hw, _, heq⟩ | ⟨_, heq⟩
  · obtain ⟨hv, _⟩ := List.getElem?_eq_some_iff.mp hv
    obtain ⟨hw, _⟩ := List.getElem?_eq_some_iff.mp hw
    omega
  · omega

theorem divergence_parent {x u d e : VertexId} (hd : (m.chain x)[m.divergence (m.chain x) (m.chain u)]? = some d)
    (he : (m.chain u)[m.divergence (m.chain x) (m.chain u)]? = some e) : m.parent? d = m.parent? e := by
  have hpos := sharedLength_chain_pos (m := m) x u
  rcases divergence_cases (m := m) (m.chain x) (m.chain u) with ⟨v, w, hv, hw, hp, heq⟩ | ⟨_, heq⟩
  · rw [heq] at hd he
    rw [hd] at hv; rw [he] at hw
    cases hv; cases hw; exact hp
  · have hlt : m.divergence (m.chain x) (m.chain u) < sharedLength (m.chain x) (m.chain u) := by omega
    rw [getElem?_of_lt_sharedLength hlt, he] at hd
    cases hd; rfl

theorem length_chain_le_divergence (h : m.Arena) {x u c : VertexId} {q : RegionId} (hq : m.owner? q = some c)
    (hqx : m.Above q x) (hqu : m.Above q u) : (m.chain c).length ≤ m.divergence (m.chain x) (m.chain u) := by
  obtain ⟨c₁, w₁, rest₁, hc₁, hw₁, hch₁⟩ := exists_chain_of_above h x (vertex?_isSome_of_above hqx) hqx
  obtain ⟨c₂, w₂, rest₂, hc₂, hw₂, hch₂⟩ := exists_chain_of_above h u (vertex?_isSome_of_above hqu) hqu
  rw [hq] at hc₁ hc₂; cases hc₁; cases hc₂
  have h₁ : (m.chain x)[(m.chain c).length]? = some w₁ := by rw [hch₁]; simp
  have h₂ : (m.chain u)[(m.chain c).length]? = some w₂ := by rw [hch₂]; simp
  have hshared := sharedLength_append (m.chain c) (w₁ :: rest₁) (w₂ :: rest₂)
  rw [← hch₁, ← hch₂] at hshared
  rcases divergence_cases (m := m) (m.chain x) (m.chain u) with ⟨_, _, _, _, _, heq⟩ | ⟨hne, heq⟩
  · omega
  · by_cases hw : w₁ = w₂
    · simp only [sharedLength, hw, ite_true] at hshared; omega
    · simp only [sharedLength, hw, ite_false, Nat.add_zero] at hshared
      rw [hshared] at hne
      exact absurd (hw₁.trans hw₂.symm) (hne w₁ w₂ h₁ h₂)

theorem not_above_of_mem_drop (h : m.Arena) {x u c : VertexId} {q : RegionId} (hu : (m.vertex? u).isSome)
    (hc : c ∈ (m.chain u).drop (m.divergence (m.chain x) (m.chain u))) (hq : m.owner? q = some c)
    (hqu : m.Above q u) : ¬ m.Above q x := by
  intro hqx
  have hle := length_chain_le_divergence h hq hqx hqu
  obtain ⟨k, hk⟩ := List.mem_iff_getElem?.mp hc
  rw [List.getElem?_drop] at hk
  have hlen := length_chain_of_getElem? h hu hk
  omega

theorem above_of_getElem? (h : m.Arena) {v d c : VertexId} {q : RegionId} {n : Nat} (hq : m.owner? q = some c)
    (hqv : m.Above q v) (hle : (m.chain c).length ≤ n) (hd : (m.chain v)[n]? = some d) : m.Above q d := by
  have hknown := vertex?_isSome_of_above hqv
  obtain ⟨c', w, rest, hc', hw, hchain⟩ := exists_chain_of_above h v hknown hqv
  rw [hq] at hc'; cases hc'
  refine above_of_mem_chain h hw d (vertex?_isSome_of_mem_chain h v hknown (List.mem_of_getElem? hd)) ?_
  obtain ⟨k, hk⟩ := Nat.exists_eq_add_of_le hle
  rw [chain_of_getElem? h v hknown hd, hk, hchain, Nat.add_assoc, List.take_length_add_append]
  simp

theorem above_of_divergence (h : m.Arena) {x u d c : VertexId} {q : RegionId} (hq : m.owner? q = some c)
    (hqx : m.Above q x) (hqu : m.Above q u)
    (hd : (m.chain x)[m.divergence (m.chain x) (m.chain u)]? = some d) : m.Above q d :=
  above_of_getElem? h hq hqx (length_chain_le_divergence h hq hqx hqu) hd

theorem above_of_mem_drop (h : m.Arena) {x u d c : VertexId} {q : RegionId} (hq : m.owner? q = some c)
    (hqx : m.Above q x) (hqu : m.Above q u)
    (hd : d ∈ (m.chain u).drop (m.divergence (m.chain x) (m.chain u))) : m.Above q d := by
  obtain ⟨k, hk⟩ := List.mem_iff_getElem?.mp hd
  rw [List.getElem?_drop] at hk
  have hle := length_chain_le_divergence h hq hqx hqu
  exact above_of_getElem? h hq hqu (Nat.le_trans hle (Nat.le_add_right _ k)) hk

end Model

end Statechart
