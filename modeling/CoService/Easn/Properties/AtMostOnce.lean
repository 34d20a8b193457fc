import CoService.Easn.HandlePacket

/-!
# Is a packet delivered at most once?

After a CRC error `handle_packet` scans on from two bytes behind the rejected header, and when that
scan is over it scans **again** from where the rejected packet claims to end. Both scans go to the
end of the buffer, so a valid packet behind a corrupt one is acknowledged and delivered twice.

`atMostOnce_iff` says for which buffers this does not happen. The argument is that of
`Infra.Scanner.once_iff`.
-/

namespace Easn

open Infra

/-- No header is acknowledged twice or delivered twice, and the delivered frames are disjoint and
in increasing order. -/
structure AtMostOnce (r : Run Event) : Prop where
  acks_nodup : ((acks r).map Prod.fst).Nodup
  delivered_nodup : ((delivered r).map Prod.fst).Nodup
  disjoint : (delivered r).Pairwise fun a b => a.1 + sizeofPacket a.2 ≤ b.1

/-- When no check faults, every visited header is acknowledged. -/
theorem acks_of_total {fd : Int} {stale : Stale} {buf : ReadBuf} {pos : Nat}
    (hT : (scanner buf).Total) :
    acks (handlePacket fd stale buf pos) =
      ((scanner buf).run stale pos).events.map fun v => (v.start, ackOf buf v) := by
  have hall := Scanner.returned_iff_forall.mp (Scanner.run_returned hT stale pos)
  rw [acks_handlePacket, List.filter_eq_self.mpr]
  intro v hv
  exact Option.isSome_iff_ne_none.mpr (hall v hv)

theorem atMostOnce_iff_once {fd : Int} {stale : Stale} {buf : ReadBuf} {pos : Nat}
    (hT : (scanner buf).Total) :
    AtMostOnce (handlePacket fd stale buf pos) ↔
      (scanner buf).Once ((scanner buf).run stale pos).events := by
  have hacks : (acks (handlePacket fd stale buf pos)).map Prod.fst
      = ((scanner buf).run stale pos).events.map Visit.start := by
    simp [acks_of_total hT]
  have hdel : (delivered (handlePacket fd stale buf pos)).map Prod.fst
      = (((scanner buf).run stale pos).events.filter (scanner buf).accepts).map Visit.start := by
    simp [delivered_handlePacket]
  have hpw : (delivered (handlePacket fd stale buf pos)).Pairwise
        (fun a b => a.1 + sizeofPacket a.2 ≤ b.1) ↔
      (((scanner buf).run stale pos).events.filter (scanner buf).accepts).Pairwise
        fun a b => (scanner buf).behind a ≤ b.start := by
    rw [delivered_handlePacket, List.pairwise_map]
    rfl
  constructor
  · intro h
    exact ⟨hacks ▸ h.acks_nodup, hpw.mp h.disjoint⟩
  · intro h
    refine ⟨hacks ▸ h.nodup, ?_, hpw.mpr h.disjoint⟩
    rw [hdel]
    exact h.nodup.sublist (List.filter_sublist.map _)

/--
**When every packet is delivered at most once.**

Exactly when the plain left-to-right scan leaves no harmful rescan behind. A rescan is a rejected
header with another header at or behind its declared end. It is harmless only if it is the
single one, begins inside the frame that the scan accepted last, and the scan from there accepts
nothing and leaves no rescan itself.
-/
theorem atMostOnce_iff (fd : Int) (stale : Stale) (buf : ReadBuf) (h : CompletePrefixes buf) :
    AtMostOnce (handlePacket fd stale buf 0) ↔ (scanner buf).RescansHarmless stale 0 :=
  (atMostOnce_iff_once h.total).trans (Scanner.once_iff h.total stale 0)

/-- Two packets of 11 bytes. The CRC of the first is wrong. -/
def corruptThenValid : ReadBuf where
  bytes := [0xaa, 0x55, 0x02, 0x00, 0x00, 0x00, 0x01, 0x00, 0x0b, 0x00, 0x00,
    0xaa, 0x55, 0x01, 0x00, 0x00, 0x00, 0x01, 0x00, 0x0b, 0x63, 0x43]
  length_le := by decide

theorem corruptThenValid_completePrefixes : CompletePrefixes corruptThenValid := by
  have hall : ∀ i ∈ List.range 22, isHeader corruptThenValid.bytes i = true →
      i + 9 ≤ corruptThenValid.bytes.length ∧ 2 ≤ declaredLength corruptThenValid i := by
    decide +kernel
  intro s hs
  have hlt : s + 1 < 22 := lt_of_isHeader hs
  exact hall s (List.mem_range.mpr (by omega)) hs

/-- The valid packet of `corruptThenValid` is acknowledged and delivered twice. -/
theorem not_atMostOnce :
    ¬ ∀ (fd : Int) (stale : Stale) (buf : ReadBuf), 11 ≤ buf.bytes.length → CompletePrefixes buf →
      AtMostOnce (handlePacket fd stale buf 0) := by
  intro h
  have hnodup := (h 3 zeroStale corruptThenValid (by decide)
    corruptThenValid_completePrefixes).delivered_nodup
  have htwice : (delivered (handlePacket 3 zeroStale corruptThenValid 0)).map Prod.fst
      = [11, 11] := by decide +kernel
  simp [htwice] at hnodup

/-- Of `corruptThenValid` the equivalence says that its rescan does harm. -/
theorem atMostOnce_iff_corruptThenValid :
    AtMostOnce (handlePacket 3 zeroStale corruptThenValid 0) ↔
      (scanner corruptThenValid).RescansHarmless zeroStale 0 :=
  atMostOnce_iff 3 zeroStale corruptThenValid corruptThenValid_completePrefixes

end Easn
