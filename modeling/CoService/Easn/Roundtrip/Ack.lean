import CoService.Easn.Properties.Bounds
import CoService.Easn.Roundtrip.Segmentation

/-!
# The acknowledgements are a stream of the protocol

An `ack_t` is a frame like any other: `fill_ack_packet` builds what `test_auth` builds for a message
with the code as its payload. So the acknowledgements that `handle_packet` writes can be read by
`handle_packet`, which delivers each of them.
-/

namespace Easn

open Infra

/-! ## One acknowledgement -/

/-- An acknowledgement as a message. -/
def ackMessage (src : PacketT) (code : ReturnCode) : Message :=
  ⟨src.type, UInt32.ofNat (indexofPacket src), htons code.value⟩

theorem htonl_indexofPacket (src : PacketT) : htonl (indexofPacket src) = src.index := by
  have h := beBytes_beNat src.index
  rwa [src.length_index] at h

theorem size_ackMessage (src : PacketT) (code : ReturnCode) : (ackMessage src code).size = 13 := by
  rw [Message.size, ackMessage, htons, length_beBytes]

theorem htonl_index_ackMessage (src : PacketT) (code : ReturnCode) :
    htonl (ackMessage src code).index.toNat = src.index := by
  have hlt : indexofPacket src < 256 ^ src.index.length := beNat_lt src.index
  rw [src.length_index] at hlt
  rw [ackMessage, UInt32.toNat_ofNat_of_lt' hlt, htonl_indexofPacket]

theorem fields_ackMessage (src : PacketT) (code : ReturnCode) :
    (ackMessage src code).fields = assignAck .init src code := by
  rw [Message.fields, htonl_index_ackMessage, size_ackMessage]
  obtain ⟨i₀, i₁, i₂, i₃, hi⟩ := List.length_eq_four.mp src.length_index
  have hcode : (htons code.value).length = 2 := length_beBytes ..
  obtain ⟨c₀, c₁, hc⟩ := List.length_eq_two.mp hcode
  rw [assignAck, ackMessage, hi, hc]
  rfl

/-- **An acknowledgement is the frame of its message.** -/
theorem buf_fillAckPacket (src : PacketT) (code : ReturnCode) :
    (fillAckPacket .init src code).buf = encode (ackMessage src code) := by
  have hsize : ntohs AckT.init.length = 13 := by decide
  rw [encode, fields_ackMessage, size_ackMessage, fillAckPacket]
  simp only [hsize]

/-- The bytes of an acknowledgement before its CRC. -/
theorem take_fillAckPacket (src : PacketT) (code : ReturnCode) :
    (fillAckPacket .init src code).buf.take 11
      = [0xaa, 0x55, src.type] ++ src.index ++ htons 13 ++ htons code.value := by
  have htake := take_encode (ackMessage src code)
  rw [size_ackMessage, htonl_index_ackMessage] at htake
  have hpayload : 9 + (ackMessage src code).payload.length = 11 := by
    rw [ackMessage, htons, length_beBytes]
  rw [hpayload] at htake
  rw [buf_fillAckPacket, htake]
  rfl

theorem type_fillAckPacket (src : PacketT) (code : ReturnCode) :
    (fillAckPacket .init src code).type = src.type := by
  rw [AckT.type, ← getD_take (show 2 < 11 by decide), take_fillAckPacket]
  rfl

theorem index_fillAckPacket (src : PacketT) (code : ReturnCode) :
    (fillAckPacket .init src code).index = src.index := by
  rw [AckT.index, ← field_take (show 3 + 4 ≤ 11 by decide), take_fillAckPacket]
  simp [htons, List.take_left', src.length_index]

/-! ## What is written -/

/-- Bytes written to the descriptor. -/
def Event.bytesTo? (fd : Int) : Event → Option (List UInt8)
  | .write fd' _ ack => if fd' = fd then some ack.buf else none
  | _ => none

/-- All the bytes that a run writes to the descriptor. -/
def written (fd : Int) (r : Run Event) : List UInt8 :=
  (r.events.filterMap (Event.bytesTo? fd)).flatten

/-- What is written acknowledges the headers that were examined: one acknowledgement each, in that
order, with the type and the index of the packet. Those with `SUCCESS` are for the packets that
were handed to the callback. -/
structure Acknowledges (fd : Int) (buf : ReadBuf) (vs : List (Visit Stale)) (r : Run Event) :
    Prop where
  examined : r.events.filterMap Event.check? =
    vs.map fun v => (v.start, sizeofPacket (received buf v))
  written : written fd r = (acks r).flatMap fun a => a.2.buf
  fields : (acks r).map (fun a => (a.1, a.2.type, a.2.index)) =
    vs.map fun v => (v.start, (received buf v).type, (received buf v).index)
  success : ((acks r).filter fun a => a.2.code = htons ReturnCode.success.value).map
      (fun a => (a.1, a.2.type, a.2.index)) =
    (delivered r).map fun d => (d.1, d.2.type, d.2.index)

section acknowledges

variable {fd : Int} {stale : Stale} {buf : ReadBuf} {pos : Nat}

theorem bytesTo_visit (fd : Int) (buf : ReadBuf) (v : Visit Stale) :
    (visitEvents fd buf v).filterMap (Event.bytesTo? fd) =
      ((visitEvents fd buf v).filterMap Event.ack?).map fun a => a.2.buf := by
  unfold visitEvents
  split <;> simp [Event.bytesTo?, Event.ack?, List.filterMap_cons]

/-- Every acknowledgement is written to the client. -/
theorem written_handlePacket : written fd (handlePacket fd stale buf pos)
    = (acks (handlePacket fd stale buf pos)).flatMap fun a => a.2.buf := by
  have hbytes : (handlePacket fd stale buf pos).events.filterMap (Event.bytesTo? fd)
      = (acks (handlePacket fd stale buf pos)).map fun a => a.2.buf := by
    unfold acks
    rw [filterMap_handlePacket (fun _ _ => rfl), filterMap_handlePacket (fun _ _ => rfl),
      List.map_flatMap]
    exact List.flatMap_congr fun v _ => bytesTo_visit fd buf v
  rw [written, hbytes, List.flatMap_def]

/-- When the call comes back, every header that it examined is acknowledged. -/
theorem acks_of_returned (h : (handlePacket fd stale buf pos).returned = true) :
    acks (handlePacket fd stale buf pos) =
      ((scanner buf).run stale pos).events.map fun v => (v.start, ackOf buf v) := by
  rw [acks_handlePacket, List.filter_eq_self.mpr]
  intro v hv
  rw [returned_handlePacket, Scanner.returned_iff_forall] at h
  exact Option.isSome_iff_ne_none.mpr (h v hv)

theorem code_ackOf (v : Visit Stale) : (ackOf buf v).code = htons ReturnCode.success.value ↔
    (scanner buf).accepts v = true := by
  rw [ackOf, code_fillAckPacket]
  split
  · next ha => exact iff_of_true rfl ha
  · next ha => exact iff_of_false (by decide) ha

theorem acknowledges (h : (handlePacket fd stale buf pos).returned = true) :
    Acknowledges fd buf ((scanner buf).run stale pos).events (handlePacket fd stale buf pos) where
  examined := checks_handlePacket
  written := written_handlePacket
  fields := by
    rw [acks_of_returned h, List.map_map]
    refine List.map_congr_left fun v _ => ?_
    simp only [Function.comp_apply, ackOf, type_fillAckPacket, index_fillAckPacket]
  success := by
    rw [acks_of_returned h, delivered_handlePacket, List.filter_map, List.map_map, List.map_map]
    have hfilter : ((fun a : Nat × AckT => decide (a.2.code = htons ReturnCode.success.value)) ∘
        fun v => (v.start, ackOf buf v)) = (scanner buf).accepts := by
      funext v
      rw [Function.comp_apply, Bool.eq_iff_iff, decide_eq_true_iff]
      exact code_ackOf v
    rw [hfilter]
    refine List.map_congr_left fun v _ => ?_
    simp only [Function.comp_apply, ackOf, type_fillAckPacket, index_fillAckPacket]

end acknowledges

/-! ## Reading the acknowledgements -/

/-- The packet is the acknowledgement. -/
structure IsAck (pkt : PacketT) (a : AckT) : Prop where
  frame : pkt.buf.take (sizeofPacket pkt) = a.buf
  type : pkt.type = a.type
  index : pkt.index = a.index
  data : pkt.data.take (sizeofData pkt) = a.code

/-- The run delivers the acknowledgements as packets, in order, each once, and finds no CRC error. -/
structure DeliversAcks (r : Run Event) (as : List AckT) : Prop where
  returned : r.returned = true
  delivered : List.Forall₂ IsAck ((delivered r).map Prod.snd) as
  acks : (acks r).map (fun a => a.2.code) = as.map fun _ => htons ReturnCode.success.value

theorem isAck_of_holds {pkt src : PacketT} {code : ReturnCode}
    (h : pkt.buf.take (ackMessage src code).size = encode (ackMessage src code))
    (hsize : (ackMessage src code).size ≤ maxSize) : IsAck pkt (fillAckPacket .init src code) := by
  have hsizeof := (sizeofPacket_of_holds h hsize).trans (size_ackMessage src code)
  have hcarries := carries_of_holds h hsize
  rw [size_ackMessage, ← buf_fillAckPacket] at h
  refine ⟨by rw [hsizeof, h], ?_, ?_, ?_⟩
  · rw [type_fillAckPacket, hcarries.type]
    rfl
  · rw [AckT.index, ← h, field_take (by decide)]
    rfl
  · rw [hcarries.payload, code_fillAckPacket]
    rfl

/-- The message that the acknowledgement of a visit is. -/
def ackMessageOf (buf : ReadBuf) (v : Visit Stale) : Message :=
  ackMessage (received buf v) (if (scanner buf).accepts v then .success else .crcError)

theorem buf_ackOf (buf : ReadBuf) (v : Visit Stale) :
    (ackOf buf v).buf = encode (ackMessageOf buf v) := buf_fillAckPacket ..

/-- What is written, as the frames of messages. -/
theorem written_of_returned {fd : Int} {stale : Stale} {buf : ReadBuf} {pos : Nat}
    (h : (handlePacket fd stale buf pos).returned = true) :
    written fd (handlePacket fd stale buf pos) =
      (((scanner buf).run stale pos).events.map (ackMessageOf buf)).flatMap encode := by
  rw [written_handlePacket, acks_of_returned h, List.flatMap_map, List.flatMap_map]
  exact List.flatMap_congr fun v _ => buf_ackOf buf v

/-- **Reading acknowledgements delivers them.** -/
theorem deliversAcks (fd : Int) (stale : Stale) (buf : ReadBuf) {src : ReadBuf}
    {vs : List (Visit Stale)} (hbuf : buf.bytes = (vs.map (ackMessageOf src)).flatMap encode) :
    DeliversAcks (handlePacket fd stale buf 0) (vs.map (ackOf src)) := by
  have hall := deliversAll_frames fd stale hbuf
  have hpackets : List.Forall₂ (fun pkt m => pkt.buf.take m.size = encode m ∧ m.size ≤ maxSize)
      ((delivered (handlePacket fd stale buf 0)).map Prod.snd) (vs.map (ackMessageOf src)) :=
    forall₂_delivered ((visits_flatMap hbuf stale).2.imp fun _ _ h =>
      ⟨h.accepts, h.holds, h.size_le⟩)
  refine ⟨hall.returned, ?_, ?_⟩
  · rw [List.forall₂_map_right_iff] at hpackets ⊢
    exact hpackets.imp fun _ _ h => isAck_of_holds h.1 h.2
  · rw [hall.acks, List.map_map, List.map_map]
    rfl

/-- **The acknowledgements are a stream of the protocol.** -/
theorem ackStream (fd : Int) (stale : Stale) (buf : ReadBuf)
    (h : (handlePacket fd stale buf 0).returned = true) :
    Acknowledges fd buf ((scanner buf).run stale 0).events (handlePacket fd stale buf 0) ∧
      ∀ (fd' : Int) (stale' : Stale) (buf' : ReadBuf),
        buf'.bytes = written fd (handlePacket fd stale buf 0) →
        DeliversAcks (handlePacket fd' stale' buf' 0)
          ((acks (handlePacket fd stale buf 0)).map Prod.snd) := by
  refine ⟨acknowledges h, fun fd' stale' buf' hbuf => ?_⟩
  rw [written_of_returned h] at hbuf
  have hacks : (acks (handlePacket fd stale buf 0)).map Prod.snd
      = ((scanner buf).run stale 0).events.map (ackOf buf) := by
    rw [acks_of_returned h, List.map_map]
    rfl
  rw [hacks]
  exact deliversAcks fd' stale' buf' hbuf

/-- A frame with a wrong CRC and a right one behind it. -/
def wrongThenRight : ReadBuf :=
  ⟨[0xaa, 0x55, 0x02, 0, 0, 0, 9, 0, 11, 0, 0] ++ encode ⟨0x01, 1, [0xaa]⟩, by decide +kernel⟩

theorem ackStream_wrongThenRight :
    Acknowledges 4 wrongThenRight ((scanner wrongThenRight).run zeroStale 0).events
        (handlePacket 4 zeroStale wrongThenRight 0) ∧
      ∀ (fd' : Int) (stale' : Stale) (buf' : ReadBuf),
        buf'.bytes = written 4 (handlePacket 4 zeroStale wrongThenRight 0) →
        DeliversAcks (handlePacket fd' stale' buf' 0)
          ((acks (handlePacket 4 zeroStale wrongThenRight 0)).map Prod.snd) :=
  ackStream 4 zeroStale wrongThenRight (by decide +kernel)

end Easn
