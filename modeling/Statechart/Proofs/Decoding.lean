import Statechart.Proofs.Texts
import Statechart.Snapshot.Binary

/-!
# Bytes that are decoded

A decoder reads an encoding if it takes just these bytes off the front, whatever follows them. What reads one encoding
and goes on to read another reads the two in a row, so a snapshot is read field by field and its tree node by node.
Lengths are counted in 64 bits, and no text or list within an encoding is longer than the encoding.
-/

namespace Statechart

/-! ## The length of encodings -/

namespace Bytes

@[simp] theorem length_ofNat (width n : Nat) : (ofNat width n).length = width := by
  induction width generalizing n with
  | zero => rfl
  | succ width ih => simp [ofNat, ih]

@[simp] theorem length_ofLength (n : Nat) : (ofLength n).length = 8 := length_ofNat 8 n

theorem length_ofText (text : String) : (ofText text).length = 8 + text.toUTF8.data.toList.length := by
  simp only [ofText, List.length_append, length_ofLength]

theorem length_stateNodes_le (nodes : List StateNode) : nodes.length ≤ (ofStateNodes nodes).length := by
  induction nodes with
  | nil => exact Nat.zero_le _
  | cons node nodes ih =>
    cases node
    simp only [ofStateNodes, ofStateNode, List.length_append, List.length_cons, length_ofText]
    omega

theorem length_regionNodes_le (nodes : List RegionNode) : nodes.length ≤ (ofRegionNodes nodes).length := by
  induction nodes with
  | nil => exact Nat.zero_le _
  | cons node nodes ih =>
    cases node
    simp only [ofRegionNodes, ofRegionNode, List.length_append, List.length_cons, length_ofText]
    omega

def Short (bytes : List UInt8) : Prop := bytes.length < 2 ^ 64

theorem Short.left {bytes bytes' : List UInt8} (h : Short (bytes ++ bytes')) : Short bytes := by
  rw [Short, List.length_append] at h
  rw [Short]; omega

theorem Short.right {bytes bytes' : List UInt8} (h : Short (bytes ++ bytes')) : Short bytes' := by
  rw [Short, List.length_append] at h
  rw [Short]; omega

end Bytes

namespace Decoder

open Bytes

variable {α β : Type}

/-! ## Reading -/

/-- From these bytes, whatever follows them, the decoder takes this value, and it leaves what follows. -/
def Reads (d : Decoder α) (bytes : List UInt8) (a : α) : Prop := ∀ rest, d (bytes ++ rest) = some (a, rest)

variable {d : Decoder α} {f : α → Decoder β} {bytes bytes' : List UInt8} {a : α} {b : β}

theorem Reads.pure (a : α) : Reads (Pure.pure a) [] a := fun _ => rfl

theorem Reads.bind (h : Reads d bytes a) (hf : Reads (f a) bytes' b) : Reads (d >>= f) (bytes ++ bytes') b := by
  intro rest
  change (d (bytes ++ bytes' ++ rest)).bind (fun p => f p.1 p.2) = _
  rw [List.append_assoc, h, Option.bind_some]
  exact hf rest

theorem Reads.andThen (h : Reads d bytes a) (hf : Reads (f a) [] b) : Reads (d >>= f) bytes b := by
  have := h.bind hf
  rwa [List.append_nil] at this

theorem Reads.map (h : Reads d bytes a) (g : α → β) : Reads (g <$> d) bytes (g a) := by
  rw [map_eq_pure_bind]
  exact h.andThen (Reads.pure (g a))

theorem Reads.lift {x : Option α} (hx : x = some a) : Reads (x : Decoder α) [] a := by
  subst hx; exact fun _ => rfl

theorem Reads.fuelled {g : Nat → Decoder α} (h : ∀ n, bytes.length ≤ n → Reads (g n) bytes a) :
    Reads (do g (← get).length) bytes a := fun rest =>
  h _ (by rw [List.length_append]; exact Nat.le_add_right _ _) rest

/-! ## Numbers and texts -/

theorem reads_byte (b : UInt8) : Reads byte [b] b := fun _ => rfl

theorem reads_nat {width n : Nat} (hn : n < 256 ^ width) : Reads (nat width) (ofNat width n) n := by
  induction width generalizing n with
  | zero =>
    obtain rfl : n = 0 := by simpa using hn
    exact Reads.pure 0
  | succ width ih =>
    have hhigh : n / 256 < 256 ^ width := Nat.div_lt_of_lt_mul (by rwa [Nat.pow_succ, Nat.mul_comm] at hn)
    have hsum : (UInt8.ofNat (n % 256)).toNat + 256 * (n / 256) = n := by
      have hlow : (UInt8.ofNat (n % 256)).toNat = n % 256 := by simp
      omega
    refine (reads_byte _).bind ((ih hhigh).andThen ?_)
    rw [hsum]
    exact Reads.pure n

theorem reads_length {n : Nat} (hn : n < 2 ^ 64) : Reads length (ofLength n) n := reads_nat (by simpa using hn)

theorem reads_take (bytes : List UInt8) : Reads (take bytes.length) bytes bytes := by
  intro rest
  simp [take]

theorem reads_text {text : String} (h : Short (ofText text)) : Reads Decoder.text (ofText text) text := by
  have hlength : text.toUTF8.data.toList.length < 2 ^ 64 := by
    rw [Short, length_ofText] at h; omega
  refine (reads_length hlength).bind ((reads_take _).andThen (Reads.lift ?_))
  have hbytes : (⟨text.toUTF8.data.toList.toArray⟩ : ByteArray) = text.toByteArray := by simp
  rw [hbytes, String.fromUTF8?, dif_pos text.isValidUTF8]
  rfl

theorem reads_bool (b : Bool) : Reads bool (ofBool b) b := by
  intro rest
  cases b <;> rfl

theorem reads_textOption {text? : Option String} (h : Short (ofTextOption text?)) :
    Reads textOption (ofTextOption text?) text? := by
  cases text? with
  | none => exact (reads_bool false).andThen (Reads.pure none)
  | some text =>
    change Short (ofBool true ++ ofText text) at h
    change Reads textOption (ofBool true ++ ofText text) _
    exact (reads_bool true).bind ((reads_text h.right).map some)

theorem reads_uuid (u : Uuid) : Reads uuid (ofLength u.bytes.length ++ u.bytes) u :=
  (reads_length (by rw [u.length_bytes]; decide)).bind ((reads_take u.bytes).andThen (Reads.lift u.ofBytes?_bytes))

theorem reads_instant {i : Instant} (h : Short (ofText i.text)) : Reads instant (ofText i.text) i :=
  (reads_text h).andThen (Reads.lift i.parse?_text)

/-! ## Trees -/

mutual

theorem reads_stateNode : ∀ (node : StateNode) (depth : Nat), (ofStateNode node).length ≤ depth →
    Short (ofStateNode node) → Reads (stateNode depth) (ofStateNode node) node
  | .mk name regions, 0, hdepth, _ => by
    simp only [ofStateNode, List.length_append, length_ofText] at hdepth
    omega
  | .mk name regions, depth + 1, hdepth, h => by
    rw [ofStateNode, List.append_assoc] at h ⊢
    have hdepth : (ofRegionNodes regions).length ≤ depth := by
      simp only [ofStateNode, List.length_append, length_ofText] at hdepth
      omega
    have hlength : regions.length < 2 ^ 64 := Nat.lt_of_le_of_lt (length_regionNodes_le regions) h.right.right
    have hregions := reads_regionNodes regions depth hdepth h.right.right
    exact (reads_text h.left).bind (((reads_length hlength).bind hregions).andThen (Reads.pure _))

theorem reads_regionNode : ∀ (node : RegionNode) (depth : Nat), (ofRegionNode node).length ≤ depth →
    Short (ofRegionNode node) → Reads (regionNode (stateNode depth)) (ofRegionNode node) node
  | .mk name current states, depth, hdepth, h => by
    rw [ofRegionNode, List.append_assoc, List.append_assoc] at h ⊢
    have hdepth : (ofStateNodes states).length ≤ depth := by
      simp only [ofRegionNode, List.length_append, length_ofText] at hdepth
      omega
    have hlength : states.length < 2 ^ 64 := Nat.lt_of_le_of_lt (length_stateNodes_le states) h.right.right.right
    have hstates := reads_stateNodes states depth hdepth h.right.right.right
    exact (reads_text h.left).bind ((reads_textOption h.right.left).bind
      (((reads_length hlength).bind hstates).andThen (Reads.pure _)))

theorem reads_stateNodes : ∀ (nodes : List StateNode) (depth : Nat), (ofStateNodes nodes).length ≤ depth →
    Short (ofStateNodes nodes) → Reads (values (stateNode depth) nodes.length) (ofStateNodes nodes) nodes
  | [], _, _, _ => Reads.pure []
  | node :: rest, depth, hdepth, h => by
    rw [ofStateNodes] at h ⊢
    rw [ofStateNodes, List.length_append] at hdepth
    have hnode := reads_stateNode node depth (by omega) h.left
    have hrest := reads_stateNodes rest depth (by omega) h.right
    exact hnode.bind (hrest.andThen (Reads.pure _))

theorem reads_regionNodes : ∀ (nodes : List RegionNode) (depth : Nat), (ofRegionNodes nodes).length ≤ depth →
    Short (ofRegionNodes nodes) → Reads (values (regionNode (stateNode depth)) nodes.length) (ofRegionNodes nodes) nodes
  | [], _, _, _ => Reads.pure []
  | node :: rest, depth, hdepth, h => by
    rw [ofRegionNodes] at h ⊢
    rw [ofRegionNodes, List.length_append] at hdepth
    have hnode := reads_regionNode node depth (by omega) h.left
    have hrest := reads_regionNodes rest depth (by omega) h.right
    exact hnode.bind (hrest.andThen (Reads.pure _))

end

/-! ## Snapshots -/

theorem reads_snapshot {s : Snapshot} (h : Short s.toBytes) : Reads snapshot s.toBytes s := by
  have hbytes : s.toBytes = ofNat 4 s.version.toNat ++ ((ofLength s.id.bytes.length ++ s.id.bytes) ++
      (ofText s.timestamp.text ++ (ofText s.machine ++ (ofBool s.terminated ++ ofStateNode s.root)))) := by
    simp [Snapshot.toBytes]
  rw [hbytes] at h ⊢
  have htexts := h.right.right
  have hroot : ∀ depth, (ofStateNode s.root).length ≤ depth → Reads (do
      let root ← stateNode depth
      Pure.pure (Snapshot.mk (UInt32.ofNat s.version.toNat) s.id s.timestamp s.machine s.terminated root))
      (ofStateNode s.root) s := fun depth hdepth => by
    have hnode := reads_stateNode s.root depth hdepth htexts.right.right.right
    refine hnode.andThen ?_
    rw [UInt32.ofNat_toNat]
    exact Reads.pure s
  exact (reads_nat s.version.toNat_lt).bind ((reads_uuid s.id).bind ((reads_instant htexts.left).bind
    ((reads_text htexts.right.left).bind ((reads_bool s.terminated).bind (Reads.fuelled hroot)))))

end Decoder

namespace Snapshot

/-- A snapshot is read back from its bytes, whatever follows them; one of another version is recognised as such. -/
theorem ofBytes_toBytes_append (s : Snapshot) (rest : List UInt8) (h : s.toBytes.length < 2 ^ 64) :
    (s.version = currentVersion → ofBytes (s.toBytes ++ rest) = .ok s) ∧
      (s.version ≠ currentVersion →
        ofBytes (s.toBytes ++ rest) = .error (.unsupportedVersion s.version currentVersion)) := by
  have hread : ofBytes (s.toBytes ++ rest) = s.checkVersion := by
    rw [ofBytes, Decoder.reads_snapshot h rest]
  rw [hread, checkVersion]
  exact ⟨fun hv => if_pos hv, fun hv => if_neg hv⟩

def paused : Snapshot where
  version := currentVersion
  id := ⟨[0x6b, 0xa7, 0xb8, 0x10, 0x9d, 0xad, 0x11, 0xd1, 0x80, 0xb4, 0x00, 0xc0, 0x4f, 0xd4, 0x30, 0xc8], rfl⟩
  timestamp := ⟨⟨2024, 2, 29⟩, ⟨23, 59, 59, 120000⟩, by decide, by decide⟩
  machine := "Abspielgerät"
  terminated := false
  root := .mk "Abspielgerät" [.mk "default" (some "an") [.mk "an" [.mk "Lied" (some "♪ 2") [], .mk "" none []]]]

theorem ofBytes_toBytes_append_paused :
    ofBytes (paused.toBytes ++ [0, 255]) = .ok paused ∧
      ofBytes ({ paused with version := 7 }.toBytes ++ [0, 255]) = .error (.unsupportedVersion 7 currentVersion) :=
  ⟨(ofBytes_toBytes_append paused [0, 255] (by decide +kernel)).1 rfl,
    (ofBytes_toBytes_append { paused with version := 7 } [0, 255] (by decide +kernel)).2 (by decide)⟩

end Snapshot

end Statechart
