import Statechart.Proofs.Crossings
import Statechart.Proofs.Recalling

/-!
# Ways into a region headed by history

A region that is headed by history is entered by its record when its state is entered by default. A transition that
leads to the history vertex itself does not look at the record: it goes on by the way out of the vertex, as if nothing
had been recorded.
-/

namespace Statechart

variable {μ δ σ : Type}

namespace Model

variable {m : Model μ δ} {i i' : Instance δ} {o u v w x : VertexId} {q r : RegionId}

def Elsewhere (m : Model μ δ) (o : VertexId) (r : RegionId) (x : VertexId) : Prop :=
  ∃ q ∈ m.regionsOf o, q ≠ r ∧ m.Above q x

/-- The instance before and the one after the region was entered by its record, or by the way to `u` if it had none:
deep history brings back whatever the records lead down to. -/
structure Restored (m : Model μ δ) (r : RegionId) (u : VertexId) (i i' : Instance δ) : Prop where
  default : i.current? r = none → m.isActive i' u = true
  last : ∀ x, i.current? r = some x → i'.current? r = some x
  deep : m.headKind? r = some .deepHistory → ∀ x, i.current? r = some x →
    (∀ w, m.Reached i x w → ∀ q ∈ m.regionsOf w, (i.current? q).isSome) →
    ∀ q, m.Encloses r q → i'.current? q = i.current? q

theorem isBranch_eq_false_of_isInitial (hv : m.isInitial v = true) : m.isBranch v = false := by
  unfold isInitial at hv
  unfold isBranch
  cases hrec : m.vertex? v with
  | none => rfl
  | some record =>
    rw [hrec, Option.any_some, Vertex.isInitial] at hv
    cases hkind : record.pseudoKind? with
    | none => simp [hkind]
    | some kind =>
      rw [hkind] at hv
      simp [hkind, PseudoKind.isBranch_eq_false_of_isInitial hv]

theorem not_isEnteredPlainly_of_isHistory (hkind : (m.headKind? r).any (·.isHistory) = true) :
    m.isEnteredPlainly r = false := by
  unfold isEnteredPlainly
  cases hk : m.headKind? r with
  | none => simp
  | some kind => cases kind <;> simp_all [PseudoKind.isHistory]

section
variable (h : m.Arena)
include h

theorem above_of_head? (hin : m.LeadsInside) (hhead : m.head? r = some v) {d : TransitionId}
    (hd : (m.outgoing v).head? = some d) (hu : m.target? d = some u) : m.Above r u := by
  obtain ⟨record, hrec, rfl⟩ := h.source_of_mem_outgoing (List.mem_of_head? hd)
  obtain ⟨w, hw, _, q, hq, habove⟩ := hin d (mem_transitionIds hrec) record hrec (isInitial_of_head? hhead)
  have hp : m.parent? record.source = some q := hq
  have htarget : m.target? d = some w := by simpa [target?, hrec] using hw
  rw [parent?_of_head? h hhead] at hp
  rw [hu] at htarget
  cases hp
  cases htarget
  exact habove

theorem Reached.of_same (hi : m.Fits false i') (hsame : ∀ q, m.Encloses r q → i'.current? q = i.current? q)
    (hv : m.Above r v) (hw : m.Reached i' v w) : m.Reached i v w ∧ m.Above r w := by
  induction hw with
  | refl => exact ⟨.refl _, hv⟩
  | @step v x w q hq hx _ ih =>
    have henclosed : m.Encloses r q := Or.inr ⟨v, h.mem_regionsOf.mp hq, hv⟩
    obtain ⟨hreached, habove⟩ := ih ((above_iff h (hi q x hx).1 r).mpr henclosed)
    exact ⟨.step hq ((hsame q henclosed).symm.trans hx) hreached, habove⟩

theorem exists_descent_of_drop {e : VertexId} {rest : List VertexId} {j : Nat} (hp : m.parent? v = some r)
    (ho : m.owner? r = some o) (hdrop : (m.chain v).drop j = e :: rest) (hne : e ≠ v) :
    ∃ rest', rest = rest' ++ [v] ∧ m.Descent (e :: rest') o := by
  rw [chain_eq h hp ho] at hdrop
  by_cases hj : j < (m.chain o).length
  · rw [List.drop_append_of_le_length (by omega), List.drop_eq_getElem_cons hj, List.cons_append] at hdrop
    cases hdrop
    have hknown := vertex?_isSome_of_isState (h.isState_of_owner? ho)
    exact ⟨_, rfl, descent_of_drop h hknown (List.drop_eq_getElem_cons hj)⟩
  · rw [List.drop_append, List.drop_eq_nil_of_le (by omega), List.nil_append] at hdrop
    have hmem : e ∈ [v] := List.mem_of_mem_drop (hdrop ▸ List.mem_cons_self)
    exact absurd (List.mem_singleton.mp hmem) hne

theorem current?_eq_some_iff_of_isActive (ho : m.owner? r = some o) (hu : m.Above r u) (ha : m.isActive i u = true)
    (hx : m.parent? x = some r) : i.current? r = some x ↔ m.isAncestor x u = true := by
  have hknown := vertex?_isSome_of_above hu
  refine ⟨fun hcurrent => ?_, fun hxu => ?_⟩
  · obtain ⟨w, hw, _, hway⟩ := current?_of_above h hknown ha hu
    rw [hcurrent] at hw
    cases hw
    rcases hway with rfl | ⟨q, hq, hqu⟩
    · exact isAncestor_refl h hknown
    · exact isAncestor_of_above h hq hqu
  · have hactive := isActive_of_mem_chain h hknown ha ((isAncestor_iff h hknown).mp hxu)
    exact ((isActive_step h hx ho).mp hactive).1

end

end Model

namespace Eval

open Model

variable {m : Model μ δ} {plainly : RegionId → Bool} {c : Context σ} {mode : Mode μ} {trigger : Trigger μ}
variable {t : TransitionId} {record : Transition μ δ} {run mid run' : Run μ δ σ} {d e o u v w x : VertexId}
variable {q r : RegionId} {rest : List VertexId} {i : Instance δ}

def RestoredBy (m : Model μ δ) (c : Context σ) (mode : Mode μ) (r : RegionId) (u : VertexId) (i : Instance δ)
    (run : Run μ δ σ) (w : VertexId) : Prop :=
  ∃ mid run', Performs m m.isEnteredPlainly c mode (m.beginEnterVertex w) run mid ∧
    Performs m m.isEnteredPlainly c mode (m.endEnterVertex m.isEnteredPlainly w) mid run' ∧
    m.Fits false run'.inst ∧ m.Restored r u i run'.inst

/-! ## Entering the other regions -/

section
variable (h : m.Arena) (ho : m.owner? r = some o) (hvisits : Visits m (m.Elsewhere o r) run run')
include h ho hvisits

theorem Visits.current?_of_beside (hq : m.Encloses r q) : run'.inst.current? q = run.inst.current? q := by
  refine hvisits.outside q fun x hx ⟨p, hp, hne, hpx⟩ => hne ?_
  exact above_unique h (h.mem_regionsOf.mp hp) ho hpx ((above_iff h hx r).mpr hq)

theorem Visits.isActive_of_beside (hv : v = o ∨ m.Above r v) :
    m.isActive run'.inst v = m.isActive run.inst v := by
  have hknown : (m.vertex? v).isSome := by
    rcases hv with rfl | hv
    · exact vertex?_isSome_of_isState (h.isState_of_owner? ho)
    · exact vertex?_isSome_of_above hv
  refine hvisits.isActive h hknown fun p w hp hw ⟨q, hq, hne, hqw⟩ => ?_
  have hqv := above_trans h ((above_iff h hw q).mp hqw) v hknown hp
  rcases hv with rfl | hv
  · exact not_above_owner h (h.mem_regionsOf.mp hq) hqv
  · exact hne (above_unique h (h.mem_regionsOf.mp hq) ho hqv hv)

theorem Visits.restored (hr : m.Above r u) (hrestored : m.Restored r u i run.inst) : m.Restored r u i run'.inst where
  default hnone := (hvisits.isActive_of_beside h ho (Or.inr hr)).trans (hrestored.default hnone)
  last x hx := (hvisits.current?_of_beside h ho (encloses_refl r)).trans (hrestored.last x hx)
  deep hkind x hx hall q hq := (hvisits.current?_of_beside h ho hq).trans (hrestored.deep hkind x hx hall q hq)

end

section
variable (h : m.Arena) (ht : m.Tame) (hin : m.LeadsInside)
include h ht hin

/-! ## Down to the state -/

theorem exists_landed (plainly : RegionId → Bool) (c : Context σ) (trigger : Trigger μ) (t : TransitionId)
    (hd : (m.vertex? d).isSome) (hl : m.Descent (e :: rest) o)
    (hs : m.isState o = true) (hi : m.Fits false run.inst)
    (hhoused : m.Housed run.inst e) : ∃ run',
      Performs m plainly c { trigger, nested := true }
        (m.leaveVertex d ++ (m.effectsOf t ++ (m.approach plainly (e :: rest) ++ m.beginEnterVertex o)))
        (run.note (.fired t trigger run.inst)) run' ∧
      m.Fits false run'.inst ∧ m.isActive run'.inst o = true ∧
      ∀ r q, m.owner? r = some o → m.Encloses r q → run'.inst.current? q = run.inst.current? q := by
  obtain ⟨gone, hleave, hdeparts⟩ := exists_departs plainly c h hi ht d hd { trigger, nested := true }
    (run.note (.fired t trigger run.inst)) rfl
  obtain ⟨effected, heffects, _, rfl, hkept, _, _, _⟩ :=
    exists_inert m plainly c { trigger, nested := true } (isInert_effectsOf ht t) gone
  have hrecords : effected.inst.records = run.inst.records := hkept.trans (hdeparts.records ht).1
  obtain ⟨start, happroach, hstart, _, hhoused'⟩ := exists_approach { trigger, nested := true } h ht hl
    (vertex?_isSome_of_isState hs) (fun x _ r hr => opens h ht hin r x (h.mem_regionsOf.mp hr)) rfl effected
    (hi.congr hrecords)
  obtain ⟨run', hbegin, hrun', hactive⟩ := exists_active plainly c { trigger, nested := true } h ht hs start hstart.fits
  refine ⟨run', hleave.append (heffects.append (happroach.append hbegin)), hrun'.fits,
    hactive (hhoused' (hhoused.congr hrecords)), fun r q hr hq => ?_⟩
  have habove : ∀ x, m.parent? x = some q → m.Above r x := fun x hx => (above_iff h hx r).mpr hq
  rw [hrun'.outside q ?_, hstart.outside q ?_, Instance.current?, hrecords]
  · rfl
  · exact fun x hx hx' => by simp [isAncestor_of_above h hr (habove x hx)] at hx'
  · rintro x hx rfl
    exact not_above_owner h hr (habove x hx)

/-! ## To the history vertex -/

theorem exists_followed_head (plainly : RegionId → Bool) (c : Context σ) (trigger : Trigger μ)
    (hrec : m.transition? t = some record) (hv : record.target = some v) (hl : ¬ m.IsLocal record v)
    (hhead : m.head? r = some v) (ho : m.owner? r = some o)
    {d : TransitionId} (hd : (m.outgoing v).head? = some d) (hu : m.target? d = some u) (hi : m.Fits false run.inst)
    (hn : m.isActive run.inst o = false) (ha : m.isActive run.inst record.source = true) :
    ∃ run', Settles (fun fuel => follow m (m.compileWith plainly) c fuel trigger t) run run' ∧
      m.isActive run'.inst u = true := by
  have hinitial := isInitial_of_head? hhead
  have hp := parent?_of_head? h hhead
  have hs := isState_eq_false_of_isInitial hinitial
  have hknown := vertex?_isSome_of_isInitial hinitial
  have hsource := h.source_isSome hrec
  obtain ⟨x, e, rest, hx, hdrop, hparent, hsteps⟩ := @steps_direct _ _ m plainly t record v hrec hv hl run.inst
  have hxactive := isActive_of_mem_chain h hsource ha (List.mem_of_getElem? hx)
  -- If the chains parted only at the head, then what is left would stand in its region, and the state would be active.
  have hne : e ≠ v := by
    rintro rfl
    have hactive := ((isActive_step h (hparent.trans hp) ho).mp hxactive).2
    rw [hn] at hactive
    cases hactive
  obtain ⟨rest', rfl, hdescent⟩ := exists_descent_of_drop h hp ho hdrop hne
  obtain ⟨start, hlanding, hstart, hoactive, _⟩ := exists_landed h ht hin plainly c trigger t
    (vertex?_isSome_of_mem_chain h _ hsource (List.mem_of_getElem? hx)) hdescent
    (h.isState_of_owner? ho) hi (housed_of_isActive h hparent hxactive)
  have hnested : ({ trigger, nested := true } : Mode μ).nested = true := rfl
  have hopens : ∀ q y, m.owner? q = some y → Opens m plainly c q := fun q y hq => opens h ht hin q y hq
  obtain ⟨next, hregions, hnext⟩ := exists_flatMap (V := m.Elsewhere o r) (fun q hq run hi => by
    obtain ⟨run', hperforms, hvisits⟩ :=
      (hopens q o (h.mem_regionsOf.mp hq)).exists_begun hnested (m.parent? v = some q) run hi
    refine ⟨run', hperforms, hvisits.mono fun x hx => ⟨q, hq, ?_, hx.2⟩⟩
    rintro rfl
    exact hx.1 hp) start hstart
  obtain ⟨mid, hbegin, hmid, _⟩ := exists_begin plainly c { trigger, nested := true } ht hknown next hnext.fits
  obtain ⟨run', hend, _, honwards⟩ := exists_onwards h ht ho (fun q y hq _ => hopens q y hq) hin hp
    hnested mid hmid.fits
  have hactive : m.isActive mid.inst o = true := by
    rw [hmid.isActive_owner h hp ho, hnext.isActive_of_beside h ho (Or.inl rfl)]
    exact hoactive
  have hperforms := hlanding.append ((hregions.append hbegin).append hend)
  refine ⟨run', settles_follow_of_not_isBranch hrec hv hknown hs ?_ ?_, honwards hactive hinitial d u hd hu⟩
  · exact isBranch_eq_false_of_isInitial hinitial
  · rw [hsteps, arrival, ← List.cons_append, cascade_snoc hdescent, endEnterVertex_of_not_isState hknown hs]
    simpa only [List.append_assoc] using hperforms

/-! ## To the state -/

theorem restoredBy_head (hhead : m.head? r = some v) (ho : m.owner? r = some o) {d : TransitionId}
    (hd : (m.outgoing v).head? = some d) (hu : m.target? d = some u) (hnested : mode.nested = true)
    (hrun : m.Fits false run.inst) (ha : m.isActive run.inst o = true) (hx : i.current? r = none) :
    RestoredBy m c mode r u i run v := by
  have hinitial := isInitial_of_head? hhead
  have hp := parent?_of_head? h hhead
  have hs := isState_eq_false_of_isInitial hinitial
  have hknown := vertex?_isSome_of_isInitial hinitial
  obtain ⟨mid, hbegin, hmid, _⟩ := exists_begin m.isEnteredPlainly c mode ht hknown run hrun
  obtain ⟨run', hend, hrun', honwards⟩ :=
    exists_onwards h ht ho (fun q y hq _ => opens h ht hin q y hq) hin hp hnested mid hmid.fits
  rw [← endEnterVertex_of_not_isState hknown hs] at hend
  refine ⟨mid, run', hbegin, hend, hrun'.fits, fun _ => ?_, by simp [hx], by simp [hx]⟩
  exact honwards ((hmid.isActive_owner h hp ho).trans ha) hinitial d u hd hu

omit hin in
theorem restoredBy_deep (hdeep : m.headKind? r = some .deepHistory) (hmode : mode.deep = true) (hi : m.Fits true i)
    (hrun : m.Fits false run.inst) (hsame : ∀ q, m.Encloses r q → run.inst.current? q = i.current? q)
    (hx : i.current? r = some x)
    (hall : ∀ w, m.Reached i x w → ∀ q ∈ m.regionsOf w, (i.current? q).isSome) :
    RestoredBy m c mode r u i run x := by
  have hp := (hi r x hx).1
  have hcurrent := hsame r (encloses_refl r)
  have hrecorded : m.OnRecord run.inst x := ⟨r, hp, hcurrent.trans hx⟩
  have hon : LeadsOn m m.isEnteredPlainly run.inst x := fun w hw => by
    obtain ⟨hreached, habove⟩ := hw.of_same h hrun hsame (above_parent h hp)
    obtain ⟨p, _, hpw⟩ := hreached.onRecord hi.weaken ⟨r, hp, hx⟩
    refine ⟨(hi p w hpw).2 rfl, fun q hq => ⟨?_, ?_⟩⟩
    · rw [hsame q (Or.inr ⟨w, h.mem_regionsOf.mp hq, habove⟩)]
      exact hall w hreached q hq
    · exact isEnteredPlainly_of_reached h hrun (Or.inr (by simp [hdeep])) hp hw q hq
  obtain ⟨mid, run', hbegin, hend, hreturns⟩ :=
    exists_returns c h hrun ht x hrecorded hon mode (by simp [hmode]) run fun _ => rfl
  have hkept : ∀ q, run'.inst.current? q = run.inst.current? q := fun q => by
    rw [hreturns.inst]
    exact (enlist_onRecord _ ht (onRecord_of_mem_recalls h hrun hrecorded)).1 q
  refine ⟨mid, run', hbegin, hend, fun q w hw => hrun q w (hkept q ▸ hw), by simp [hx], fun y hy => ?_, ?_⟩
  · exact (hkept r).trans (hcurrent.trans hy)
  · exact fun _ _ _ _ q hq => (hkept q).trans (hsame q hq)

theorem restoredBy_last (ho : m.owner? r = some o) (hi : m.Fits true i) (hrun : m.Fits false run.inst)
    (ha : m.isActive run.inst o = true) (hnested : mode.nested = true) (hx : i.current? r = some x)
    (hpartial : ¬ (m.headKind? r = some .deepHistory ∧
      ∀ w, m.Reached i x w → ∀ q ∈ m.regionsOf w, (i.current? q).isSome)) :
    RestoredBy m c mode r u i run x := by
  obtain ⟨hp, hs⟩ := hi r x hx
  obtain ⟨mid, run', hbegin, hend, _, hrun', hactive⟩ := exists_entered_state mode h ht (hs rfl)
    (fun q hq => opens h ht hin q x (h.mem_regionsOf.mp hq)) hnested run hrun
  refine ⟨mid, run', hbegin, hend, hrun'.fits, by simp [hx], fun y hy => ?_, fun hdeep y hy hall => ?_⟩
  · have hxactive := hactive (housed_of_owner hp ho ha)
    rw [((isActive_step h hp ho).mp hxactive).1, ← hx, hy]
  · rw [hx] at hy
    cases hy
    exact absurd ⟨hdeep, hall⟩ hpartial

theorem exists_restored (c : Context σ) (trigger : Trigger μ) (hhead : m.head? r = some v)
    (hkind : (m.headKind? r).any (·.isHistory) = true) (ho : m.owner? r = some o)
    {d : TransitionId} (hd : (m.outgoing v).head? = some d) (hu : m.target? d = some u) (hi : m.Fits true i)
    (hrun : m.Fits false run.inst) (ha : m.isActive run.inst o = true)
    (hsame : ∀ q, m.Encloses r q → run.inst.current? q = i.current? q) : ∃ run',
      Performs m m.isEnteredPlainly c { trigger, nested := true }
        (beginEnterRegion r ++ m.endEnterRegion m.isEnteredPlainly r) run run' ∧
      m.Fits false run'.inst ∧ m.Restored r u i run'.inst := by
  let started : Run μ δ σ := { run.note (.entered (.region r)) with
    outside := c.log (m.qualifiedName (.region r) ++ " enter") run.outside }
  let mode : Mode μ := { trigger, nested := true, deep := m.headKind? r == some .deepHistory }
  suffices hentered : ∃ w, (i.current? r).or (some v) = some w ∧ (m.vertex? w).isSome ∧
      RestoredBy m c mode r u i started w by
    obtain ⟨w, hw, hknown, mid, run', hbegin, hend, hrun', hrestored⟩ := hentered
    refine ⟨run', (Performs.single (takes_announceEnter (.region r))).append ?_, hrun', hrestored⟩
    rw [endEnterRegion_eq (Or.inr (not_isEnteredPlainly_of_isHistory hkind)), hhead]
    refine .single (takes_enterRegion (v := w) ?_ hknown hbegin hend)
    simpa [entered?, hkind, hsame r (encloses_refl r)] using hw
  -- With nothing recorded the head is entered, and otherwise the record.
  cases hx : i.current? r with
  | none =>
    exact ⟨v, rfl, vertex?_isSome_of_isInitial (isInitial_of_head? hhead),
      restoredBy_head h ht hin hhead ho hd hu rfl hrun ha hx⟩
  | some x =>
    refine ⟨x, rfl, vertex?_isSome_of_parent? (hi r x hx).1, ?_⟩
    -- Where the records break off, deep history restores the recorded state and makes no promise about what is beneath.
    by_cases hall : m.headKind? r = some .deepHistory ∧
        ∀ w, m.Reached i x w → ∀ q ∈ m.regionsOf w, (i.current? q).isSome
    · exact restoredBy_deep h ht hall.1 (by simp [mode, hall.1]) hi hrun hsame hx hall.2
    · exact restoredBy_last h ht hin ho hi hrun ha rfl hx hall

theorem exists_followed_owner (c : Context σ) (trigger : Trigger μ) (hrec : m.transition? t = some record)
    (hto : record.target = some o) (hl : ¬ m.IsLocal record o) (hhead : m.head? r = some v)
    (hkind : (m.headKind? r).any (·.isHistory) = true) (ho : m.owner? r = some o)
    {d : TransitionId} (hd : (m.outgoing v).head? = some d) (hu : m.target? d = some u)
    (hr : m.Above r u) (hi : m.Fits true run.inst) (ha : m.isActive run.inst record.source = true) :
    ∃ run', Settles (fun fuel => follow m m.compile c fuel trigger t) run run' ∧
      m.Restored r u run.inst run'.inst := by
  have hfits : m.Fits false run.inst := hi.weaken
  have hs := h.isState_of_owner? ho
  have hsource := h.source_isSome hrec
  have hnested : ({ trigger, nested := true } : Mode μ).nested = true := rfl
  obtain ⟨x, e, rest, hx, hdrop, hparent, hsteps⟩ :=
    @steps_direct _ _ m m.isEnteredPlainly t record o hrec hto hl run.inst
  have hxactive := isActive_of_mem_chain h hsource ha (List.mem_of_getElem? hx)
  have hdescent := descent_of_drop h (vertex?_isSome_of_isState hs) hdrop
  obtain ⟨start, hlanding, hstart, hactive, hsame⟩ := exists_landed h ht hin m.isEnteredPlainly c trigger t
    (vertex?_isSome_of_mem_chain h _ hsource (List.mem_of_getElem? hx)) hdescent hs hfits
    (housed_of_isActive h hparent hxactive)
  obtain ⟨before, after, hsplit⟩ := List.append_of_mem (h.mem_regionsOf.mpr ho)
  -- Before its turn and after it the regions beside `r` are entered by default, which changes nothing beneath `r`.
  obtain ⟨-, hunique, hapart⟩ := List.nodup_append.mp (hsplit ▸ h.nodup_regionsOf o)
  have hothers : ∀ rs : List RegionId, (∀ q ∈ rs, q ∈ m.regionsOf o ∧ q ≠ r) → ∀ run : Run μ δ σ,
      m.Fits false run.inst → ∃ run', Performs m m.isEnteredPlainly c { trigger, nested := true }
        (rs.flatMap fun q => beginEnterRegion q ++ m.endEnterRegion m.isEnteredPlainly q) run run' ∧
        Visits m (m.Elsewhere o r) run run' := fun rs hrs run hi =>
    exists_flatMap (fun q hq run hi => by
      obtain ⟨run', hperforms, hvisits⟩ :=
        (opens h ht hin q o (h.mem_regionsOf.mp (hrs q hq).1)).exists_begun hnested False run hi
      exact ⟨run', by simpa using hperforms, hvisits.mono fun x hx => ⟨q, (hrs q hq).1, (hrs q hq).2, hx.2⟩⟩) run hi
  obtain ⟨begun, hbefore, hbegun⟩ := hothers before
    (fun q hq => ⟨by simp [hsplit, hq], hapart q hq r List.mem_cons_self⟩) start hstart
  obtain ⟨entered, hentered, hfits', hrestored⟩ := exists_restored h ht hin c trigger hhead hkind ho hd hu hi
    hbegun.fits ((hbegun.isActive_of_beside h ho (Or.inl rfl)).trans hactive)
    fun q hq => (hbegun.current?_of_beside h ho hq).trans (hsame r q ho hq)
  obtain ⟨run', hafter, hrun'⟩ := hothers after
    (fun q hq => ⟨by simp [hsplit, hq], ne_of_mem_of_not_mem hq (List.nodup_cons.mp hunique).1⟩) entered hfits'
  have hperforms := hlanding.append (hbefore.append (hentered.append hafter))
  have hrestored' : m.Restored r u run.inst run'.inst := hrun'.restored h ho hr hrestored
  refine ⟨_, settles_follow hrec hto hs ?_, hrestored'⟩
  rw [hsteps, arrival, cascade_eq_approach hdescent, endEnterVertex_of_isState hs, hsplit]
  simpa only [List.append_assoc, List.flatMap_append, List.flatMap_cons] using hperforms

end

end Eval

namespace Machine

variable {μ δ σ : Type}

/-- Two transitions lead from outside into a state whose region `r` is headed by history: `t` to the history vertex
`v`, `s` to the state `o` itself. The one to the state restores the region, the one to the vertex goes to `u`, where the
way out of the vertex leads, whatever is recorded. So they leave the same recorded for the region just when `u` is the
recorded vertex or beneath it. -/
theorem Built.recalls_only_by_default {m : Machine μ δ} (hm : m.Built) (ht : m.Tame) (hin : m.LeadsInside)
    (c : Context σ) (trigger trigger' : Trigger μ) {r : RegionId} {o v u : VertexId} (ho : m.owner? r = some o)
    (hhead : m.head? r = some v) (hkind : (m.headKind? r).any (·.isHistory) = true) {d : TransitionId}
    (hd : (m.outgoing v).head? = some d) (hu : m.target? d = some u)
    {t s : TransitionId} {record record' : Transition μ δ}
    (hrec : m.transition? t = some record) (hv : record.target = some v) (hl : ¬ m.IsLocal record v)
    (hrec' : m.transition? s = some record') (hto : record'.target = some o) (hl' : ¬ m.IsLocal record' o)
    {run : Run μ δ σ} (hi : m.Fits true run.inst) (hn : m.isActive run.inst o = false)
    (ha : m.isActive run.inst record.source = true) (ha' : m.isActive run.inst record'.source = true) :
    ∃ pointed entered,
      Eval.Settles (fun fuel => Eval.follow m.toModel m.toModel.compile c fuel trigger t) run pointed ∧
      Eval.Settles (fun fuel => Eval.follow m.toModel m.toModel.compile c fuel trigger' s) run entered ∧
      m.isActive pointed.inst u = true ∧ m.Restored r u run.inst entered.inst ∧
      ∀ x, run.inst.current? r = some x →
        (pointed.inst.current? r = entered.inst.current? r ↔ m.isAncestor x u = true) := by
  have h := hm.sound.arena
  have hfits : m.Fits false run.inst := hi.weaken
  have habove : m.Above r u := Model.above_of_head? h hin hhead hd hu
  obtain ⟨pointed, hpointed, hactive⟩ := Eval.exists_followed_head h ht hin m.isEnteredPlainly
    c trigger hrec hv hl hhead ho hd hu hfits hn ha
  obtain ⟨entered, hentered, hrestored⟩ := Eval.exists_followed_owner h ht hin c trigger'
    hrec' hto hl' hhead hkind ho hd hu habove hi ha'
  refine ⟨pointed, entered, hpointed, hentered, hactive, hrestored, fun x hx => ?_⟩
  rw [hrestored.last x hx]
  exact Model.current?_eq_some_iff_of_isActive h ho habove hactive (hi r x hx).1

/-- One reads on where one has stopped, by opening the book or by its mark. -/
def book : Machine String Unit := (ofName "m").edited
  [.addPseudoState (.state root) "start" .initial, .addState (.state root) "away", .addTransition (.between ⟨1⟩ ⟨2⟩),
    .addState (.state root) "book", .addPseudoState (.state ⟨3⟩) "mark" .deepHistory,
    .addState (.state ⟨3⟩) "preface", .addTransition (.between ⟨4⟩ ⟨5⟩), .addState (.state ⟨3⟩) "chapter",
    .addTransition ((Draft.between ⟨2⟩ ⟨4⟩).on "mark"), .addTransition ((Draft.between ⟨2⟩ ⟨3⟩).on "open"),
    .addTransition ((Draft.between ⟨5⟩ ⟨6⟩).on "read"), .addTransition ((Draft.between ⟨3⟩ ⟨2⟩).on "close")]

def closed : Run String Unit Unit where
  inst := (({ data := () } : Instance Unit).setCurrent ⟨0⟩ ⟨2⟩).setCurrent ⟨1⟩ ⟨6⟩
  outside := ()

theorem recalls_only_by_default_book : ∃ pointed entered,
    Eval.Settles (fun fuel => Eval.follow book.toModel book.toModel.compile Context.strict fuel (.message "mark") ⟨2⟩)
      closed pointed ∧
    Eval.Settles (fun fuel => Eval.follow book.toModel book.toModel.compile Context.strict fuel (.message "open") ⟨3⟩)
      closed entered ∧
    pointed.inst.current? ⟨1⟩ = some ⟨5⟩ ∧ entered.inst.current? ⟨1⟩ = some ⟨6⟩ := by
  have hbuilt : book.Built := (Built.ofName "m").edited _
  have htame : book.Tame := tame_edited "m" (by simp [Edit.Uses, Draft.between, Draft.on, Draft.guarded, Action.Tame])
  have hmark : book.transition? ⟨2⟩ = some ((book.transition? ⟨2⟩).get (by decide +kernel)) := (Option.some_get _).symm
  have hopen : book.transition? ⟨3⟩ = some ((book.transition? ⟨3⟩).get (by decide +kernel)) := (Option.some_get _).symm
  have hempty : book.Fits true { data := () } := Model.fits_empty ()
  have hfits : book.Fits true closed.inst := (hempty.setCurrent (r := ⟨0⟩) (v := ⟨2⟩) (by decide +kernel)
    (by decide +kernel)).setCurrent (r := ⟨1⟩) (v := ⟨6⟩) (by decide +kernel) (by decide +kernel)
  obtain ⟨pointed, entered, hpointed, hentered, hactive, hrestored, _⟩ :=
    Built.recalls_only_by_default hbuilt htame (by decide +kernel) Context.strict (.message "mark") (.message "open")
      (r := ⟨1⟩) (o := ⟨3⟩) (v := ⟨4⟩) (u := ⟨5⟩) (by decide +kernel) (by decide +kernel) (by decide +kernel) (d := ⟨1⟩)
      (by decide +kernel) (by decide +kernel) hmark (by decide +kernel)
      (fun hl => by have := hl.1; revert this; decide +kernel) hopen (by decide +kernel)
      (fun hl => by have := hl.1; revert this; decide +kernel) hfits (by decide +kernel)
      (by decide +kernel) (by decide +kernel)
  have hparent : book.parent? ⟨5⟩ = some ⟨1⟩ := by decide +kernel
  have howner : book.owner? ⟨1⟩ = some ⟨3⟩ := by decide +kernel
  have hcurrent := ((Model.isActive_step hbuilt.sound.arena hparent howner).mp hactive).1
  exact ⟨pointed, entered, hpointed, hentered, hcurrent, hrestored.last ⟨6⟩ (by decide +kernel)⟩

theorem played_book : (book.played 50 () ["open", "read", "close"]).isSome = true := by decide +kernel

theorem not_alike_book :
    ¬ ∀ (m : Machine String Unit) (play : Play String Unit) (r : RegionId) (o v x : VertexId) (t s : TransitionId)
        (record record' : Transition String Unit) (trigger trigger' : Trigger String) (fuel : Nat)
        (pointed entered : Run String Unit Unit),
      m.Built → m.isWellFormed = true → m.LeadsInside → m.Tame → m.Plays play → m.owner? r = some o →
      m.head? r = some v → (m.headKind? r).any (·.isHistory) = true → m.isActive play.2.1 o = false →
      play.2.1.current? r = some x → m.transition? t = some record → record.target = some v → ¬ m.IsLocal record v →
      m.isActive play.2.1 record.source = true → m.transition? s = some record' → record'.target = some o →
      ¬ m.IsLocal record' o → m.isActive play.2.1 record'.source = true →
      Eval.follow m.toModel m.toModel.compile Context.strict fuel trigger t { inst := play.2.1, outside := () } =
        .ok () pointed →
      Eval.follow m.toModel m.toModel.compile Context.strict fuel trigger' s { inst := play.2.1, outside := () } =
        .ok () entered →
      pointed.inst.current? r = entered.inst.current? r := by
  intro hall
  have halike := hall book ((book.played 50 () _).get played_book) ⟨1⟩ ⟨3⟩ ⟨4⟩ ⟨6⟩ ⟨2⟩ ⟨3⟩
    ((book.transition? ⟨2⟩).get (by decide +kernel)) ((book.transition? ⟨3⟩).get (by decide +kernel))
    (.message "mark") (.message "open") 50 _ _
    ((Built.ofName "m").edited _) (by decide +kernel) (by decide +kernel)
    (tame_edited "m" (by simp [Edit.Uses, Draft.between, Draft.on, Draft.guarded, Action.Tame]))
    (plays_of_played book 50 () _ played_book) (by decide +kernel) (by decide +kernel) (by decide +kernel)
    (by decide +kernel) (by decide +kernel) (Option.some_get _).symm (by decide +kernel)
    (fun hl => by have := hl.1; revert this; decide +kernel) (by decide +kernel) (Option.some_get _).symm
    (by decide +kernel) (fun hl => by have := hl.1; revert this; decide +kernel) (by decide +kernel)
    (eq_ok_of_answer? (a := ()) (by decide +kernel)) (eq_ok_of_answer? (a := ()) (by decide +kernel))
  revert halike
  decide +kernel

end Machine

end Statechart
