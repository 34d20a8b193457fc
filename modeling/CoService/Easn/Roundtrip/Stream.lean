import CoService.Easn.Roundtrip.Message

/-!
# The round trip of a whole read

A read holds frames with noise between them. `handle_packet` delivers exactly the messages of the
frames, whatever their payloads contain: the bytes of a payload are skipped with the frame, and
noise without the two header bytes is skipped by the search.

The induction is on the list of frames. `visits_stream` is stated for a suffix of the buffer, since
the recursion works on positions.
-/

namespace Easn

open Infra

/-- The byte pair `0xaa 0x55` does not occur. -/
def Clean (noise : List UInt8) : Prop := ∀ i, isHeader noise i = false

instance (noise : List UInt8) : Decidable (Clean noise) :=
  decidable_of_iff (∀ i ∈ List.range noise.length, isHeader noise i = false) <| by
    refine ⟨fun h i => ?_, fun h i _ => h i⟩
    by_contra hi
    have hlt := lt_of_isHeader (Bool.eq_true_of_not_eq_false hi)
    exact hi (h i (List.mem_range.mpr (by omega)))

/-- The frames, each followed by its noise. -/
def framesWithNoise (items : List (Message × List UInt8)) : List UInt8 :=
  items.flatMap fun x => encode x.1 ++ x.2

theorem clean_nil : Clean [] := fun _ => rfl

/-- A header takes two bytes. -/
theorem clean_singleton (b : UInt8) : Clean [b] := by
  intro i
  by_contra hi
  have hlt := lt_of_isHeader (Bool.eq_true_of_not_eq_false hi)
  simp at hlt

/-! ## Finding the next header -/

theorem isHeader_append_right (pre l : List UInt8) (i : Nat) :
    isHeader (pre ++ l) (pre.length + i) = isHeader l i := by
  simp only [isHeader, List.getD_eq_getElem?_getD, Nat.add_assoc]
  rw [List.getElem?_append_right (by omega), List.getElem?_append_right (by omega)]
  simp

/-- Noise contains no header, not even together with the first byte of a frame. -/
theorem isHeader_noise {noise tail : List UInt8} (hn : Clean noise)
    (htail : tail.head? ≠ some 0x55) {i : Nat} (hi : i < noise.length) :
    isHeader (noise ++ tail) i = false := by
  by_cases hlast : i + 1 < noise.length
  · have hc := hn i
    simp only [isHeader, List.getD_eq_getElem?_getD] at hc ⊢
    rwa [List.getElem?_append_left hi, List.getElem?_append_left hlast]
  · have hnext : (noise ++ tail).getD (i + 1) 0 ≠ 0x55 := by
      rw [List.getD_eq_getElem?_getD, List.getElem?_append_right (by omega),
        show i + 1 - noise.length = 0 by omega]
      cases tail with
      | nil => simp
      | cons b t => simpa using htail
    rw [isHeader, beq_eq_false_iff_ne.mpr hnext, Bool.and_false]

/-- After noise alone the search finds nothing. -/
theorem findHeaderPosition_noise (pre : List UInt8) {noise : List UInt8} (hn : Clean noise) :
    findHeaderPosition (pre ++ noise) pre.length = none := by
  rw [findHeaderPosition, firstFrom_eq_none]
  intro q hq _
  obtain ⟨i, rfl⟩ := Nat.exists_eq_add_of_le hq
  rw [isHeader_append_right, hn i]

/-- The search goes over the noise to the header behind it. -/
theorem findHeaderPosition_header {pre noise : List UInt8} (hn : Clean noise) (rest : List UInt8) :
    findHeaderPosition (pre ++ (noise ++ 0xaa :: 0x55 :: rest)) pre.length
      = some (pre.length + noise.length) := by
  rw [findHeaderPosition, firstFrom_eq_some]
  refine ⟨?_, by omega, ?_, ?_⟩
  · have h := isHeader_append_right noise (0xaa :: 0x55 :: rest) 0
    rw [isHeader_append_right, ← Nat.add_zero noise.length, h]
    rfl
  · simp only [List.length_append, List.length_cons]
    omega
  · intro q hq hlt
    obtain ⟨i, rfl⟩ := Nat.exists_eq_add_of_le hq
    rw [isHeader_append_right]
    refine isHeader_noise hn ?_ (by omega)
    simp

/-- The search goes over the noise to the frame behind it. -/
theorem findHeaderPosition_frame {pre noise : List UInt8} (hn : Clean noise) (m : Message)
    (rest : List UInt8) :
    findHeaderPosition (pre ++ (noise ++ (encode m ++ rest))) pre.length
      = some (pre.length + noise.length) := by
  obtain ⟨body, hbody⟩ := encode_eq_cons m
  rw [hbody]
  exact findHeaderPosition_header hn (body ++ rest)

/-! ## The visits -/

/-- The visit found the frame of the message. -/
structure Finds (buf : ReadBuf) (v : Visit Stale) (m : Message) : Prop where
  accepts : (scanner buf).accepts v = true
  carries : Carries (received buf v) m

/-- The visit found the frame of the message, whole in the packet. -/
structure FindsFrame (buf : ReadBuf) (v : Visit Stale) (m : Message) : Prop where
  accepts : (scanner buf).accepts v = true
  holds : (received buf v).buf.take m.size = encode m
  size_le : m.size ≤ maxSize

theorem FindsFrame.finds {buf : ReadBuf} {v : Visit Stale} {m : Message}
    (h : FindsFrame buf v m) : Finds buf v m :=
  ⟨h.accepts, carries_of_holds h.holds h.size_le⟩

/-- **The visits of a stream are those of its frames.** -/
theorem visits_frames (buf : ReadBuf) : ∀ (items : List (Message × List UInt8)) (stale : Stale)
    (pre noise : List UInt8), buf.bytes = pre ++ (noise ++ framesWithNoise items) →
    Clean noise → (∀ x ∈ items, Clean x.2) →
    ((scanner buf).run stale pre.length).returned = true ∧
      List.Forall₂ (FindsFrame buf) ((scanner buf).run stale pre.length).events
        (items.map Prod.fst)
  | [], stale, pre, noise, hbuf, hn, _ => by
    have hs : (scanner buf).find pre.length = none := by
      rw [scanner_find, hbuf]
      simpa [framesWithNoise] using findHeaderPosition_noise pre hn
    rw [Scanner.run_none hs]
    exact ⟨rfl, List.Forall₂.nil⟩
  | (m, noise') :: items, stale, pre, noise, hbuf, hn, hall => by
    have hcons : framesWithNoise ((m, noise') :: items)
        = encode m ++ (noise' ++ framesWithNoise items) := by
      simp [framesWithNoise]
    rw [hcons] at hbuf
    have hs : (scanner buf).find pre.length = some (pre.length + noise.length) := by
      rw [scanner_find, hbuf]
      exact findHeaderPosition_frame hn m _
    -- the frame lies whole behind the header
    have hdrop : buf.bytes.drop (pre.length + noise.length)
        = encode m ++ (noise' ++ framesWithNoise items) := by
      rw [hbuf, ← List.append_assoc, ← List.length_append, List.drop_left]
    have hremain : m.size ≤ buf.bytes.length - (pre.length + noise.length) := by
      rw [← List.length_drop, hdrop, List.length_append, length_encode]
      omega
    have hsize : m.size ≤ maxSize := by
      have hle := buf.length_le
      omega
    have hholds : (recePtk (stale []) buf (pre.length + noise.length)).buf.take m.size
        = encode m := by
      rw [take_recePtk _ hremain, hdrop, ← length_encode m, List.take_left]
    have hsizeof := sizeofPacket_of_holds hholds hsize
    have hv : ((scanner buf).look stale (pre.length + noise.length)).verdict = some true := by
      rw [scanner_verdict, hsizeof]
      exact checkCrc_of_holds hholds hsize
    have hnext : pre.length + noise.length + m.size = (pre ++ (noise ++ encode m)).length := by
      rw [List.length_append, List.length_append, length_encode]
      omega
    have ih := visits_frames buf items ((scanner buf).child .next stale) (pre ++ (noise ++ encode m))
      noise' (by rw [hbuf]; simp) (hall (m, noise') List.mem_cons_self)
      (fun x hx => hall x (List.mem_cons_of_mem _ hx))
    rw [← hnext] at ih
    rw [Scanner.run_accept hs hv, scanner_size, hsizeof, Run.events_emit_andThen,
      Run.returned_andThen]
    exact ⟨by rw [ih.1]; rfl,
      List.Forall₂.cons ⟨Scanner.accepts_of_true hv, hholds, hsize⟩ ih.2⟩

/-- The visits of a stream carry its messages. -/
theorem visits_stream (buf : ReadBuf) (items : List (Message × List UInt8)) (stale : Stale)
    (pre noise : List UInt8) (hbuf : buf.bytes = pre ++ (noise ++ framesWithNoise items))
    (hn : Clean noise) (hall : ∀ x ∈ items, Clean x.2) :
    ((scanner buf).run stale pre.length).returned = true ∧
      List.Forall₂ (Finds buf) ((scanner buf).run stale pre.length).events
        (items.map Prod.fst) := by
  obtain ⟨hreturned, hframes⟩ := visits_frames buf items stale pre noise hbuf hn hall
  exact ⟨hreturned, hframes.imp fun _ _ h => h.finds⟩

/-- The visits of frames that follow one another without noise. -/
theorem visits_flatMap {buf : ReadBuf} {msgs : List Message}
    (hbuf : buf.bytes = msgs.flatMap encode) (stale : Stale) :
    ((scanner buf).run stale 0).returned = true ∧
      List.Forall₂ (FindsFrame buf) ((scanner buf).run stale 0).events msgs := by
  have hitems : framesWithNoise (msgs.map fun m => (m, [])) = msgs.flatMap encode := by
    simp [framesWithNoise, List.flatMap_map]
  have hclean : ∀ x ∈ msgs.map (fun m => (m, ([] : List UInt8))), Clean x.2 := by
    intro x hx
    obtain ⟨m, _, rfl⟩ := List.mem_map.mp hx
    exact clean_nil
  have h := visits_frames buf (msgs.map fun m => (m, [])) stale [] []
    (by rw [hitems]; exact hbuf) clean_nil hclean
  have hfst : (Prod.fst ∘ fun m : Message => (m, ([] : List UInt8))) = id := rfl
  rwa [List.map_map, hfst, List.map_id] at h

/-! ## What is delivered -/

/-- The run comes back, delivers the messages in order, each once, and acknowledges each once, with
`SUCCESS`. -/
structure DeliversAll (r : Run Event) (msgs : List Message) : Prop where
  returned : r.returned = true
  delivered : List.Forall₂ Carries ((delivered r).map Prod.snd) msgs
  acks : (acks r).map (fun a => a.2.code) = msgs.map fun _ => htons ReturnCode.success.value

/-- What is known of the packets of all visits is known of the packets delivered. -/
theorem forall₂_delivered {R : PacketT → Message → Prop} {fd : Int} {stale : Stale} {buf : ReadBuf}
    {pos : Nat} {msgs : List Message}
    (h : List.Forall₂ (fun v m => (scanner buf).accepts v = true ∧ R (received buf v) m)
      ((scanner buf).run stale pos).events msgs) :
    List.Forall₂ R ((delivered (handlePacket fd stale buf pos)).map Prod.snd) msgs := by
  rw [delivered_handlePacket, List.map_map]
  generalize ((scanner buf).run stale pos).events = vs at h ⊢
  induction h with
  | nil => exact List.Forall₂.nil
  | cons hv _ ih =>
    rw [List.filter_cons, if_pos hv.1]
    exact List.Forall₂.cons hv.2 ih

theorem deliversAll_of_finds {fd : Int} {stale : Stale} {buf : ReadBuf} {pos : Nat}
    {msgs : List Message} (hr : ((scanner buf).run stale pos).returned = true)
    (h : List.Forall₂ (Finds buf) ((scanner buf).run stale pos).events msgs) :
    DeliversAll (handlePacket fd stale buf pos) msgs := by
  refine ⟨returned_handlePacket.trans hr, ?_, ?_⟩
  · exact forall₂_delivered (h.imp fun _ _ hv => ⟨hv.accepts, hv.carries⟩)
  · rw [acks_handlePacket, List.map_map]
    clear hr
    generalize ((scanner buf).run stale pos).events = vs at h ⊢
    induction h with
    | nil => rfl
    | @cons v m _ _ hv _ ih =>
      have hverdict : ((scanner buf).look v.env v.start).verdict = some true := by
        simpa [Scanner.accepts] using hv.accepts
      rw [List.filter_cons, if_pos (by rw [hverdict]; rfl), List.map_cons, List.map_cons, ih]
      rw [Function.comp_apply, ackOf, code_fillAckPacket, if_pos hv.accepts]

/--
**The round trip of a whole read.**

Frames with noise before, between and after them are delivered message by message, whatever the
payloads contain and whatever `rece_ptk` held.
-/
theorem handlePacket_stream (fd : Int) (stale : Stale) (buf : ReadBuf) (noise : List UInt8)
    (items : List (Message × List UInt8)) (hbuf : buf.bytes = noise ++ framesWithNoise items)
    (hn : Clean noise) (hall : ∀ x ∈ items, Clean x.2) :
    DeliversAll (handlePacket fd stale buf 0) (items.map Prod.fst) := by
  have h := visits_stream buf items stale [] noise (by simpa using hbuf) hn hall
  exact deliversAll_of_finds h.1 h.2

/-- A first message whose payload is a header, between noise that ends in half a header. -/
theorem handlePacket_stream_headerInPayload :
    DeliversAll
      (handlePacket 4 zeroStale
        ⟨[0xaa] ++ framesWithNoise [(⟨0x01, 1, [0xaa, 0x55]⟩, [0xaa]), (⟨0x02, 2, []⟩, [])],
          by decide +kernel⟩ 0)
      [⟨0x01, 1, [0xaa, 0x55]⟩, ⟨0x02, 2, []⟩] :=
  handlePacket_stream 4 zeroStale _ [0xaa]
    [(⟨0x01, 1, [0xaa, 0x55]⟩, [0xaa]), (⟨0x02, 2, []⟩, [])] rfl (clean_singleton _)
    (by
      intro x hx
      rcases List.mem_cons.mp hx with rfl | hx
      · exact clean_singleton _
      · rw [List.mem_singleton.mp hx]
        exact clean_nil)

end Easn
