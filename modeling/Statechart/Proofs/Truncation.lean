import Statechart.Proofs.Decoding

/-!
# Bytes that are cut short

A decoder that has come to a value comes to the same value where more bytes follow, and leaves these as well. The first
bytes of a snapshot can thus not be read as a snapshot themselves: with the other bytes after them, the decoder would
leave these over, but it takes them all.
-/

namespace Statechart

namespace Decoder

open Bytes

variable {α β : Type}

/-! ## More bytes -/

/-- What `d` takes off some bytes, `d'` takes off them where more bytes follow. -/
def Persists (d d' : Decoder α) : Prop :=
  ∀ bytes a rest, d bytes = some (a, rest) → ∀ more, d' (bytes ++ more) = some (a, rest ++ more)

variable {d d' : Decoder α} {f f' : α → Decoder β}

theorem Persists.pure (a : α) : Persists (Pure.pure a) (Pure.pure a) := by
  intro bytes b rest h more
  cases h
  rfl

theorem Persists.bind (h : Persists d d') (hf : ∀ a, Persists (f a) (f' a)) : Persists (d >>= f) (d' >>= f') := by
  intro bytes b rest hb more
  obtain ⟨⟨a, mid⟩, ha, hrest⟩ := Option.bind_eq_some_iff.mp hb
  have hmid := h bytes a mid ha more
  change (d' (bytes ++ more)).bind (fun p => f' p.1 p.2) = _
  rw [hmid, Option.bind_some]
  exact hf a mid b rest hrest more

theorem Persists.map (h : Persists d d') (g : α → β) : Persists (g <$> d) (g <$> d') := by
  rw [map_eq_pure_bind, map_eq_pure_bind]
  exact h.bind fun a => .pure (g a)

theorem Persists.lift (x : Option α) : Persists (x : Decoder α) (x : Decoder α) := by
  intro bytes a rest h more
  cases x with
  | none => cases h
  | some b =>
    cases h
    rfl

theorem Persists.failure {d' : Decoder α} : Persists failure d' := fun _ _ _ h => by cases h

theorem Persists.fuelled {g : Nat → Decoder α} (h : ∀ n n', n ≤ n' → Persists (g n) (g n')) :
    Persists (do g (← get).length) (do g (← get).length) := fun bytes a rest ha more =>
  h _ _ (by rw [List.length_append]; exact Nat.le_add_right _ _) bytes a rest ha more

/-! ## Numbers and texts -/

theorem persists_byte : Persists byte byte := by
  intro bytes b rest h more
  cases bytes with
  | nil => cases h
  | cons b' bytes =>
    cases h
    rfl

theorem persists_nat (width : Nat) : Persists (nat width) (nat width) := by
  induction width with
  | zero => exact .pure 0
  | succ width ih => exact persists_byte.bind fun _ => ih.bind fun _ => .pure _

theorem persists_length : Persists length length := persists_nat 8

theorem persists_take (n : Nat) : Persists (take n) (take n) := by
  intro bytes a rest h more
  unfold take at h ⊢
  split at h
  · rename_i hn
    simp only [List.splitAt_eq, Option.some.injEq, Prod.mk.injEq] at h
    obtain ⟨rfl, rfl⟩ := h
    rw [if_pos (by rw [List.length_append]; omega), List.splitAt_eq, List.take_append_of_le_length hn,
      List.drop_append_of_le_length hn]
  · cases h

theorem persists_text : Persists text text :=
  persists_length.bind fun n => (persists_take n).bind fun _ => .lift _

theorem persists_bool : Persists bool bool := by
  refine persists_byte.bind fun b => ?_
  split
  · exact .pure false
  · exact .pure true
  · exact .failure

theorem persists_textOption : Persists textOption textOption := by
  refine persists_bool.bind fun present => ?_
  cases present with
  | false => exact .pure none
  | true => exact persists_text.map some

theorem persists_uuid : Persists uuid uuid :=
  persists_length.bind fun n => (persists_take n).bind fun _ => .lift _

theorem persists_instant : Persists instant instant := persists_text.bind fun _ => .lift _

/-! ## Trees -/

theorem persists_values (h : Persists d d') (n : Nat) : Persists (values d n) (values d' n) := by
  induction n with
  | zero => exact .pure []
  | succ n ih => exact h.bind fun _ => ih.bind fun _ => .pure _

theorem persists_list (h : Persists d d') : Persists (list d) (list d') := persists_length.bind (persists_values h)

theorem persists_regionNode {d d' : Decoder StateNode} (h : Persists d d') :
    Persists (regionNode d) (regionNode d') :=
  persists_text.bind fun _ => persists_textOption.bind fun _ => (persists_list h).bind fun _ => .pure _

theorem persists_stateNode {depth depth' : Nat} (h : depth ≤ depth') :
    Persists (stateNode depth) (stateNode depth') := by
  induction depth generalizing depth' with
  | zero => exact .failure
  | succ depth ih =>
    obtain ⟨k, rfl⟩ : ∃ k, depth' = k + 1 := ⟨depth' - 1, by omega⟩
    have hregion := persists_regionNode (ih (Nat.le_of_succ_le_succ h))
    exact persists_text.bind fun _ => (persists_list hregion).bind fun _ => .pure _

/-! ## Snapshots -/

theorem persists_snapshot : Persists snapshot snapshot := by
  refine (persists_nat 4).bind fun version => persists_uuid.bind fun id => persists_instant.bind fun timestamp =>
    persists_text.bind fun machine => persists_bool.bind fun terminated => ?_
  have hroot : ∀ n n', n ≤ n' → Persists
      (do Pure.pure (Snapshot.mk (UInt32.ofNat version) id timestamp machine terminated (← stateNode n)))
      (do Pure.pure (Snapshot.mk (UInt32.ofNat version) id timestamp machine terminated (← stateNode n'))) :=
    fun _ _ hn => (persists_stateNode hn).bind fun _ => .pure _
  exact .fuelled hroot

theorem Persists.eq_none_of_append {more : List UInt8} (h : Persists d d) {bytes : List UInt8} {a : α}
    (hread : d (bytes ++ more) = some (a, [])) (hmore : more ≠ []) : d bytes = none := by
  cases hd : d bytes with
  | none => rfl
  | some p =>
    obtain ⟨b, rest⟩ := p
    have hsame := h bytes b rest hd more
    rw [hread, Option.some.injEq, Prod.mk.injEq] at hsame
    exact absurd (List.append_eq_nil_iff.mp hsame.2.symm).2 hmore

end Decoder

namespace Snapshot

/-- Bytes that only begin the encoding of a snapshot are not accepted, whatever its version and wherever they stop. -/
theorem ofBytes_of_cut (s : Snapshot) (h : s.toBytes.length < 2 ^ 64) {bytes : List UInt8} (hbytes : bytes <+: s.toBytes)
    (hcut : bytes ≠ s.toBytes) : ∃ reason, ofBytes bytes = .error (.deserializationFailed reason) := by
  obtain ⟨more, hmore⟩ := hbytes
  have hread : Decoder.snapshot (bytes ++ more) = some (s, []) := by
    have hall := Decoder.reads_snapshot h []
    rwa [List.append_nil, ← hmore] at hall
  have hne : more ≠ [] := by
    rintro rfl
    exact hcut (by rw [← hmore, List.append_nil])
  have hnone := Decoder.persists_snapshot.eq_none_of_append hread hne
  exact ⟨_, by rw [ofBytes, hnone]⟩

theorem ofBytes_of_cut_paused : ∃ reason,
    ofBytes ({ paused with version := 7 }.toBytes.take ({ paused with version := 7 }.toBytes.length - 8)) =
      .error (.deserializationFailed reason) :=
  ofBytes_of_cut { paused with version := 7 } (by decide +kernel) (List.take_prefix _ _) (by decide +kernel)

end Snapshot

end Statechart
