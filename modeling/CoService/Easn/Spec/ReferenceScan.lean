import CoService.Easn.HandlePacket

/-!
# The plain left-to-right scan

`referenceScan` is what a reader of the protocol would do with a buffer: go from header to header,
take the frame if it is wholly there and its CRC is right, else go on two bytes further. It looks at
received bytes only.

`handle_packet` delivers these frames first, in this order, before whatever its rescans add.
-/

namespace Easn

open Infra

/-- The frames that the plain scan finds from `pos` on: where they start, and their bytes. -/
def referenceScan (buf : ReadBuf) (pos : Nat) : List (Nat × List UInt8) :=
  match _hs : findHeaderPosition buf.bytes pos with
  | none => []
  | some start =>
    let size := min (declaredLength buf start) maxSize
    let frame := (buf.bytes.drop start).take size
    if _h : size ≤ buf.bytes.length - start ∧ checkCrc frame size = some true then
      (start, frame) :: referenceScan buf (start + size)
    else referenceScan buf (start + 2)
termination_by buf.bytes.length - pos
decreasing_by
  · have h1 := findHeaderPosition_bounds _hs
    have h2 := two_le_of_checkCrc _h.2
    omega
  · have h1 := findHeaderPosition_bounds _hs
    omega

/-- No frame that is cut off by the end of the buffer passes its CRC check with the bytes that
`rece_ptk` held. -/
def NoStaleFrame (stale : Stale) (buf : ReadBuf) : Prop :=
  ∀ path s, isHeader buf.bytes s = true →
    buf.bytes.length - s < sizeofPacket (recePtk (stale path) buf s) →
    checkCrc (recePtk (stale path) buf s).buf (sizeofPacket (recePtk (stale path) buf s))
      ≠ some true

theorem NoStaleFrame.child {stale : Stale} {buf : ReadBuf} (h : NoStaleFrame stale buf)
    (b : Branch) : NoStaleFrame (stale.child b) buf := fun path => h (b :: path)

section cases

variable {buf : ReadBuf} {pos s : Nat}

theorem referenceScan_none (hs : findHeaderPosition buf.bytes pos = none) :
    referenceScan buf pos = [] := by
  rw [referenceScan]
  split <;> simp_all

theorem referenceScan_some (hs : findHeaderPosition buf.bytes pos = some s) :
    referenceScan buf pos =
      let size := min (declaredLength buf s) maxSize
      let frame := (buf.bytes.drop s).take size
      if size ≤ buf.bytes.length - s ∧ checkCrc frame size = some true then
        (s, frame) :: referenceScan buf (s + size)
      else referenceScan buf (s + 2) := by
  rw [referenceScan]
  split
  · simp_all
  · next s' hs' =>
    obtain rfl : s' = s := by simpa [hs] using hs'.symm
    simp only [dite_eq_ite]

end cases

/-- What was delivered, as the start and the bytes of the frame. -/
def frameOf (d : Nat × PacketT) : Nat × List UInt8 := (d.1, d.2.buf.take (sizeofPacket d.2))

/-- **The reference scan finds what the descent of `handle_packet` accepts.** -/
theorem referenceScan_eq_scan {stale : Stale} {buf : ReadBuf} (hc : CompletePrefixes buf)
    (hn : NoStaleFrame stale buf) (pos : Nat) :
    referenceScan buf pos = (((scanner buf).scan stale pos).filter (scanner buf).accepts).map
      fun v => frameOf (v.start, received buf v) := by
  induction stale, pos using (scanner buf).call_induction with
  | none stale pos hs =>
    rw [referenceScan_none hs, Scanner.scan_none hs]
    rfl
  | fault stale pos s hs hv => exact absurd hv (hc.total.of_find stale hs)
  | accept stale pos s hs hv ih =>
    have hheader := Scanner.header_of_find hs
    have hsize := sizeofPacket_recePtk (stale []) (hc s hheader).1
    have hcrc : checkCrc (recePtk (stale []) buf s).buf (sizeofPacket (recePtk (stale []) buf s))
        = some true := hv
    -- an accepted frame is wholly in the buffer
    have hle : sizeofPacket (recePtk (stale []) buf s) ≤ buf.bytes.length - s := by
      by_contra hlt
      exact hn [] s hheader (by omega) hcrc
    rw [checkCrc_recePtk _ hle] at hcrc
    rw [scanner_size, scanner_child] at ih
    rw [referenceScan_some hs, Scanner.scan_accept hs hv, List.filter_cons,
      if_pos (Scanner.accepts_of_true hv), List.map_cons]
    simp only [← hsize]
    rw [if_pos ⟨hle, hcrc⟩, ih (hn.child .next), frameOf, received, take_recePtk _ hle]
    rfl
  | reject stale pos s hs hv ih _ =>
    have hheader := Scanner.header_of_find hs
    have hsize := sizeofPacket_recePtk (stale []) (hc s hheader).1
    have hcrc : checkCrc (recePtk (stale []) buf s).buf (sizeofPacket (recePtk (stale []) buf s))
        = some false := hv
    have hbad : ¬ (sizeofPacket (recePtk (stale []) buf s) ≤ buf.bytes.length - s ∧
        checkCrc ((buf.bytes.drop s).take (sizeofPacket (recePtk (stale []) buf s)))
          (sizeofPacket (recePtk (stale []) buf s)) = some true) := by
      rintro ⟨hle, htrue⟩
      rw [checkCrc_recePtk _ hle, htrue] at hcrc
      simp at hcrc
    have hrej : ¬ (scanner buf).accepts ⟨stale, s⟩ = true := by
      simp [Scanner.accepts_of_false hv]
    rw [scanner_skip, scanner_child] at ih
    rw [referenceScan_some hs, Scanner.scan_reject hs hv, List.filter_cons, if_neg hrej]
    simp only [← hsize]
    rw [if_neg hbad, ih (hn.child .resync)]
    rfl

/--
**Resynchronisation loses nothing.** `handle_packet` comes back, and the frames of the plain scan
are the first that it delivers.
-/
theorem referenceScan_prefix (fd : Int) {stale : Stale} {buf : ReadBuf}
    (hc : CompletePrefixes buf) (hn : NoStaleFrame stale buf) (pos : Nat) :
    (handlePacket fd stale buf pos).returned = true ∧
      referenceScan buf pos <+: (delivered (handlePacket fd stale buf pos)).map frameOf := by
  constructor
  · rw [returned_handlePacket]
    exact Scanner.run_returned hc.total stale pos
  · rw [referenceScan_eq_scan hc hn, delivered_handlePacket, List.map_map]
    exact ((Scanner.scan_prefix_run stale pos).filter _).map _

/-- A packet of 11 bytes, and the first 11 of the 13 bytes of another. -/
def validThenCut : ReadBuf where
  bytes := [0xaa, 0x55, 0x01, 0x00, 0x00, 0x00, 0x01, 0x00, 0x0b, 0x63, 0x43,
    0xaa, 0x55, 0x01, 0x00, 0x00, 0x00, 0x01, 0x00, 0x0d, 0x00, 0x00]
  length_le := by decide

theorem validThenCut_completePrefixes : CompletePrefixes validThenCut := by
  have hall : ∀ i ∈ List.range 22, isHeader validThenCut.bytes i = true →
      i + 9 ≤ validThenCut.bytes.length ∧ 2 ≤ declaredLength validThenCut i := by
    decide +kernel
  intro s hs
  have hlt : s + 1 < 22 := lt_of_isHeader hs
  exact hall s (List.mem_range.mpr (by omega)) hs

theorem validThenCut_noStaleFrame : NoStaleFrame zeroStale validThenCut := by
  have hall : ∀ i ∈ List.range 22, isHeader validThenCut.bytes i = true →
      checkCrc (recePtk .zero validThenCut i).buf (sizeofPacket (recePtk .zero validThenCut i))
        = some true → i = 0 := by
    decide +kernel
  have hsize : ¬ validThenCut.bytes.length - 0 < sizeofPacket (recePtk .zero validThenCut 0) := by
    decide +kernel
  intro path s hs hshort hcrc
  have hlt : s + 1 < 22 := lt_of_isHeader hs
  obtain rfl := hall s (List.mem_range.mpr (by omega)) hs hcrc
  exact hsize hshort

/-- The first packet is delivered. The second is cut off, and zeros do not complete it. -/
theorem referenceScan_prefix_validThenCut :
    (handlePacket 3 zeroStale validThenCut 0).returned = true ∧
      referenceScan validThenCut 0
        <+: (delivered (handlePacket 3 zeroStale validThenCut 0)).map frameOf :=
  referenceScan_prefix 3 validThenCut_completePrefixes validThenCut_noStaleFrame 0

end Easn
