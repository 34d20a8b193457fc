import CoService.Easn.Roundtrip.Ack
import CoService.Infra.ResyncWork

/-!
# How often a frame is handled

A read holds whole frames and spoiled ones, with noise between them. `handle_packet` comes to a
frame once for every way through the rejected ones before it: after a CRC error it goes on both
behind the header and behind the frame, and both lead to the frame that follows.

* `repeated_handlePacket` — a frame behind `k` spoiled ones is acknowledged `2 ^ k` times, and
  delivered as often
* `acks_lt_two_pow` — no read is acknowledged more often than `2 ^ n - 1` times, with `n` headers
* `length_acks_spoiled` — a read of spoiled frames reaches the bound
-/

namespace Easn

open Infra

/-- A frame that fails its check. It declares its own length, and the prefix is all there. -/
structure SpoiledFrame where
  rest : List UInt8
  seven_le : 7 ≤ rest.length
  declared : ntohs ((rest.drop 5).take 2) = 2 + rest.length
  rejected : checkCrc (0xaa :: 0x55 :: rest) (2 + rest.length) = some false

/-- What a read holds between the noise. -/
inductive Piece
  | whole (m : Message)
  | spoiled (f : SpoiledFrame)

namespace Piece

def bytes : Piece → List UInt8
  | whole m => encode m
  | spoiled f => 0xaa :: 0x55 :: f.rest

/-- The check succeeds. -/
def ok : Piece → Bool
  | whole _ => true
  | spoiled _ => false

/-- The code that the piece is acknowledged with. -/
def code : Piece → ReturnCode
  | whole _ => .success
  | spoiled _ => .crcError

/-- The packet carries what the piece says, if it says anything. -/
def CarriedBy (p : Piece) (pkt : PacketT) : Prop :=
  match p with
  | whole m => Carries pkt m
  | spoiled _ => False

/-- The scan does not stop on the way from the piece to the end of the noise behind it. The bytes
of a whole frame are skipped, those of a spoiled one are not. -/
def Quiet (p : Piece) (noise : List UInt8) : Prop :=
  match p with
  | whole _ => Clean noise
  | spoiled f => Clean (0x55 :: f.rest ++ noise)

theorem bytes_eq_cons (p : Piece) : ∃ rest, p.bytes = 0xaa :: 0x55 :: rest := by
  cases p with
  | whole m => exact encode_eq_cons m
  | spoiled f => exact ⟨f.rest, rfl⟩

end Piece

/-- The pieces, each followed by its noise. -/
def piecesWithNoise (items : List (Piece × List UInt8)) : List UInt8 :=
  items.flatMap fun x => x.1.bytes ++ x.2

/-- Where the pieces begin, and whether they are accepted. -/
def tilesFrom : Nat → List (Piece × List UInt8) → List (Nat × Bool)
  | _, [] => []
  | s, (p, noise) :: items => (s, p.ok) :: tilesFrom (s + p.bytes.length + noise.length) items

theorem tilesFrom_append (s : Nat) (before after : List (Piece × List UInt8)) :
    tilesFrom s (before ++ after)
      = tilesFrom s before ++ tilesFrom (s + (piecesWithNoise before).length) after := by
  induction before generalizing s with
  | nil => rfl
  | cons x before ih =>
    obtain ⟨p, noise⟩ := x
    rw [List.cons_append, tilesFrom, ih, tilesFrom, List.cons_append]
    simp only [piecesWithNoise, List.flatMap_cons, List.length_append, Nat.add_assoc]

theorem countP_tilesFrom (s : Nat) (items : List (Piece × List UInt8)) :
    (tilesFrom s items).countP (fun t => !t.2) = items.countP fun x => !x.1.ok := by
  induction items generalizing s with
  | nil => rfl
  | cons x items ih =>
    obtain ⟨p, noise⟩ := x
    rw [tilesFrom, List.countP_cons, List.countP_cons, ih]

theorem length_tilesFrom (s : Nat) (items : List (Piece × List UInt8)) :
    (tilesFrom s items).length = items.length := by
  induction items generalizing s with
  | nil => rfl
  | cons x items ih =>
    obtain ⟨p, noise⟩ := x
    rw [tilesFrom, List.length_cons, List.length_cons, ih]

/-- Of spoiled frames none is accepted. -/
theorem rejected_tilesFrom {s : Nat} {items : List (SpoiledFrame × List UInt8)} {t : Nat × Bool}
    (h : t ∈ tilesFrom s (items.map fun x => (.spoiled x.1, x.2))) : t.2 = false := by
  induction items generalizing s with
  | nil => simp [tilesFrom] at h
  | cons x items ih =>
    rw [List.map_cons, tilesFrom, List.mem_cons] at h
    rcases h with rfl | h
    · rfl
    · exact ih h

/-! ## A piece in the buffer -/

section piece

variable {buf : ReadBuf} {s : Nat} {rest : List UInt8}

/-- A whole frame is found whole, whatever `rece_ptk` held. -/
theorem holds_whole {m : Message} (hdrop : buf.bytes.drop s = encode m ++ rest)
    (prior : PacketT) : (recePtk prior buf s).buf.take m.size = encode m ∧ m.size ≤ maxSize := by
  have hremain : m.size ≤ buf.bytes.length - s := by
    rw [← List.length_drop, hdrop, List.length_append, length_encode]
    exact Nat.le_add_right _ _
  have hle := buf.length_le
  refine ⟨?_, by omega⟩
  rw [take_recePtk _ hremain, hdrop, ← length_encode m, List.take_left]

/-- What looking at a piece says. -/
theorem look_piece {p : Piece} (hdrop : buf.bytes.drop s = p.bytes ++ rest) (stale : Stale) :
    (scanner buf).look stale s = ⟨p.bytes.length, some p.ok⟩ := by
  cases p with
  | whole m =>
    obtain ⟨hholds, hsize⟩ := holds_whole hdrop (stale [])
    have hsizeof := sizeofPacket_of_holds hholds hsize
    show Look.mk _ _ = _
    rw [hsizeof, checkCrc_of_holds hholds hsize]
    show _ = Look.mk (encode m).length _
    rw [length_encode]
    rfl
  | spoiled f =>
    have h7 := f.seven_le
    have hle := buf.length_le
    have hlen : buf.bytes.length - s = 2 + f.rest.length + rest.length := by
      rw [← List.length_drop, hdrop, Piece.bytes]
      simp only [List.length_append, List.length_cons]
      omega
    have hdeclared : declaredLength buf s = 2 + f.rest.length := by
      rw [declaredLength, ← List.drop_drop, hdrop, ← f.declared]
      congr 1
      show ((f.rest ++ rest).drop 5).take 2 = _
      rw [List.drop_append_of_le_length (by omega), List.take_append_of_le_length (by simp; omega)]
    have hsizeof : sizeofPacket (recePtk (stale []) buf s) = 2 + f.rest.length := by
      rw [sizeofPacket_recePtk _ (by omega), hdeclared]
      omega
    have htake : (buf.bytes.drop s).take (2 + f.rest.length) = 0xaa :: 0x55 :: f.rest := by
      rw [hdrop]
      exact List.take_left' (by simp [Piece.bytes]; omega)
    show Look.mk _ _ = _
    rw [hsizeof, checkCrc_recePtk _ (by omega), htake, f.rejected]
    show _ = Look.mk (0xaa :: 0x55 :: f.rest).length _
    rw [List.length_cons, List.length_cons, Nat.add_comm]
    rfl

/-- Behind a spoiled frame the scan finds the same from both places where it goes on. -/
theorem find_spoiled {f : SpoiledFrame} {noise : List UInt8}
    (hdrop : buf.bytes.drop s = (Piece.spoiled f).bytes ++ (noise ++ rest))
    (hquiet : (Piece.spoiled f).Quiet noise) (hrest : rest.head? ≠ some 0x55) :
    (scanner buf).find (s + 2) = (scanner buf).find (s + (Piece.spoiled f).bytes.length) := by
  have hbytes : (Piece.spoiled f).bytes.length = f.rest.length + 2 := rfl
  have hlen := congrArg List.length hdrop
  rw [List.length_drop, List.length_append, hbytes] at hlen
  have hbehind : buf.bytes.drop (s + 1) = 0x55 :: f.rest ++ noise ++ rest := by
    rw [← List.drop_drop, hdrop]
    simp [Piece.bytes]
  refine firstFrom_skip (by omega) fun q hq hlt => ?_
  -- the place is in the frame, behind its first byte
  obtain ⟨i, rfl⟩ := Nat.exists_eq_add_of_le (show s + 1 ≤ q by omega)
  have htake : (buf.bytes.take (s + 1)).length = s + 1 := List.length_take_of_le (by omega)
  have hread := isHeader_append_right (buf.bytes.take (s + 1)) (0x55 :: f.rest ++ noise ++ rest) i
  rw [htake, ← hbehind, List.take_append_drop, hbehind] at hread
  show isHeader buf.bytes (s + 1 + i) = false
  rw [hread]
  exact isHeader_noise hquiet hrest (by simp; omega)

/-- The read has the piece behind the noise, with `noise'` and the other pieces behind it. -/
structure FirstPiece (buf : ReadBuf) (pre noise : List UInt8) (p : Piece) (noise' : List UInt8)
    (items : List (Piece × List UInt8)) : Prop where
  find : (scanner buf).find pre.length = some (pre.length + noise.length)
  drop : buf.bytes.drop (pre.length + noise.length) = p.bytes ++ (noise' ++ piecesWithNoise items)
  bytes : buf.bytes = (pre ++ (noise ++ p.bytes)) ++ (noise' ++ piecesWithNoise items)
  length_eq : (pre ++ (noise ++ p.bytes)).length = pre.length + noise.length + p.bytes.length
  clean : Clean noise'
  inside : p.ok = false → (scanner buf).find (pre.length + noise.length + 2)
    = (scanner buf).find (pre.length + noise.length + p.bytes.length)

theorem FirstPiece.of_bytes {pre noise noise' : List UInt8} {p : Piece}
    {items : List (Piece × List UInt8)}
    (hbuf : buf.bytes = pre ++ (noise ++ piecesWithNoise ((p, noise') :: items)))
    (hn : Clean noise) (hquiet : p.Quiet noise') : FirstPiece buf pre noise p noise' items := by
  have hcons : piecesWithNoise ((p, noise') :: items)
      = p.bytes ++ (noise' ++ piecesWithNoise items) := by
    simp [piecesWithNoise]
  rw [hcons] at hbuf
  have hdrop : buf.bytes.drop (pre.length + noise.length)
      = p.bytes ++ (noise' ++ piecesWithNoise items) := by
    rw [hbuf, ← List.append_assoc, ← List.length_append, List.drop_left]
  -- what comes next does not complete a header
  have hnext : (piecesWithNoise items).head? ≠ some 0x55 := by
    cases items with
    | nil => simp [piecesWithNoise]
    | cons x items =>
      obtain ⟨body, hbody⟩ := x.1.bytes_eq_cons
      simp [piecesWithNoise, hbody]
  refine ⟨?_, hdrop, by rw [hbuf]; simp, ?_, ?_, fun hok => ?_⟩
  · obtain ⟨body, hbody⟩ := p.bytes_eq_cons
    rw [scanner_find, hbuf, hbody]
    exact findHeaderPosition_header hn _
  · rw [List.length_append, List.length_append, Nat.add_assoc]
  · cases p with
    | whole m => exact hquiet
    | spoiled f =>
      intro i
      have hi := hquiet ((0x55 :: f.rest).length + i)
      rwa [isHeader_append_right] at hi
  · cases p with
    | whole m => simp [Piece.ok] at hok
    | spoiled f => exact find_spoiled hdrop hquiet hnext

/-- **The pieces of a read lie one behind the other.** -/
theorem tiled_pieces : ∀ (items : List (Piece × List UInt8)) (pre noise : List UInt8),
    buf.bytes = pre ++ (noise ++ piecesWithNoise items) → Clean noise →
    (∀ x ∈ items, x.1.Quiet x.2) →
    (scanner buf).Tiled pre.length (tilesFrom (pre.length + noise.length) items)
  | [], pre, noise, hbuf, hn, _ => by
    refine Scanner.Tiled.nil ?_
    rw [scanner_find, hbuf]
    simpa [piecesWithNoise] using findHeaderPosition_noise pre hn
  | (p, noise') :: items, pre, noise, hbuf, hn, hall => by
    have hfirst := FirstPiece.of_bytes hbuf hn (hall (p, noise') List.mem_cons_self)
    have ih := tiled_pieces items (pre ++ (noise ++ p.bytes)) noise' hfirst.bytes hfirst.clean
      (fun x hx => hall x (List.mem_cons_of_mem _ hx))
    rw [hfirst.length_eq] at ih
    exact Scanner.Tiled.cons hfirst.find (look_piece hfirst.drop) hfirst.inside ih

end piece

/-! ## What becomes of a piece -/

/-- The piece at `start` is acknowledged `n` times with its code, and a whole frame is delivered as
often. -/
structure Repeated (r : Run Event) (start : Nat) (p : Piece) (n : Nat) : Prop where
  acks : ((acks r).map Prod.fst).count start = n
  codes : ∀ a ∈ Easn.acks r, a.1 = start → a.2.code = htons p.code.value
  delivered : ((delivered r).map Prod.fst).count start = if p.ok then n else 0
  carried : ∀ x ∈ Easn.delivered r, x.1 = start → p.CarriedBy x.2

/-- Two pieces do not begin at one place. -/
theorem eq_of_fst_eq {l : List (Nat × Bool)} (h : l.Pairwise fun t t' => t.1 < t'.1)
    {t t' : Nat × Bool} (ht : t ∈ l) (ht' : t' ∈ l) (heq : t.1 = t'.1) : t = t' := by
  have hnodup : (l.map Prod.fst).Nodup :=
    List.pairwise_map.mpr (h.imp fun hlt => Nat.ne_of_lt hlt)
  exact List.inj_on_of_nodup_map hnodup ht ht' heq

/-- The frames that are accepted, counted among all that are looked at. -/
theorem count_filter_snd {l : List (Nat × Bool)} {s : Nat} (ok : Bool)
    (h : ∀ t ∈ l, t.1 = s → t.2 = ok) :
    ((l.filter Prod.snd).map Prod.fst).count s = if ok then (l.map Prod.fst).count s else 0 := by
  induction l with
  | nil => simp
  | cons t l ih =>
    have hrest := ih fun u hu => h u (List.mem_cons_of_mem _ hu)
    obtain ⟨q, b⟩ := t
    have hq : q = s → b = ok := h (q, b) List.mem_cons_self
    by_cases hqs : q = s
    · obtain rfl := hq hqs
      cases b <;> simp [hqs, hrest]
    · cases b <;> simp [List.count_cons_of_ne hqs, hrest]

section read

variable {fd : Int} {stale : Stale} {buf : ReadBuf} {noise : List UInt8}
  {items : List (Piece × List UInt8)}

/-- The pieces of a read. -/
theorem tiled_read (hbuf : buf.bytes = noise ++ piecesWithNoise items) (hn : Clean noise)
    (hall : ∀ x ∈ items, x.1.Quiet x.2) : (scanner buf).Tiled 0 (tilesFrom noise.length items) := by
  have htiled := tiled_pieces items [] noise (by simpa using hbuf) hn hall
  rwa [List.length_nil, Nat.zero_add] at htiled

/-- The visits of a read. -/
theorem visits_pieces (stale : Stale) (hbuf : buf.bytes = noise ++ piecesWithNoise items)
    (hn : Clean noise) (hall : ∀ x ∈ items, x.1.Quiet x.2) :
    ((scanner buf).run stale 0).returned = true ∧
      ((scanner buf).run stale 0).events.map (fun v => (v.start, (scanner buf).accepts v))
        = Scanner.revisits (tilesFrom noise.length items) :=
  Scanner.visits_of_tiled (tiled_read hbuf hn hall) stale

section among

variable {p : Piece} {noise' : List UInt8} {before after : List (Piece × List UInt8)}

/-- Where a piece is among the others. -/
theorem drop_pieces (hbuf : buf.bytes = noise ++ piecesWithNoise (before ++ (p, noise') :: after)) :
    buf.bytes.drop (noise.length + (piecesWithNoise before).length)
      = p.bytes ++ (noise' ++ piecesWithNoise after) := by
  have happend : piecesWithNoise (before ++ (p, noise') :: after)
      = piecesWithNoise before ++ (p.bytes ++ (noise' ++ piecesWithNoise after)) := by
    simp [piecesWithNoise]
  rw [hbuf, happend, ← List.append_assoc, ← List.length_append, List.drop_left]

/-- How often a piece is visited. -/
theorem count_visits_piece (stale : Stale)
    (hbuf : buf.bytes = noise ++ piecesWithNoise (before ++ (p, noise') :: after)) (hn : Clean noise)
    (hall : ∀ x ∈ before ++ (p, noise') :: after, x.1.Quiet x.2) :
    ((((scanner buf).run stale 0).events.map fun v =>
      (v.start, (scanner buf).accepts v)).map Prod.fst).count
        (noise.length + (piecesWithNoise before).length) = 2 ^ before.countP fun y => !y.1.ok := by
  have hpairwise := ((tiled_read hbuf hn hall).pairwise stale).2
  rw [(visits_pieces stale hbuf hn hall).2]
  rw [tilesFrom_append, tilesFrom] at hpairwise ⊢
  rw [← countP_tilesFrom noise.length before]
  exact Scanner.count_revisits hpairwise

/-- The visits at a piece have its verdict. -/
theorem accepts_visit_piece (stale : Stale)
    (hbuf : buf.bytes = noise ++ piecesWithNoise (before ++ (p, noise') :: after)) (hn : Clean noise)
    (hall : ∀ x ∈ before ++ (p, noise') :: after, x.1.Quiet x.2) {v : Visit Stale}
    (hv : v ∈ ((scanner buf).run stale 0).events)
    (hstart : v.start = noise.length + (piecesWithNoise before).length) :
    (scanner buf).accepts v = p.ok := by
  have hpairwise := ((tiled_read hbuf hn hall).pairwise stale).2
  have hmem : (v.start, (scanner buf).accepts v)
      ∈ tilesFrom noise.length (before ++ (p, noise') :: after) := by
    rw [← Scanner.mem_revisits, ← (visits_pieces stale hbuf hn hall).2]
    exact List.mem_map.mpr ⟨v, hv, rfl⟩
  have hpiece : (noise.length + (piecesWithNoise before).length, p.ok)
      ∈ tilesFrom noise.length (before ++ (p, noise') :: after) := by
    rw [tilesFrom_append, tilesFrom]
    simp
  exact congrArg Prod.snd (eq_of_fst_eq hpairwise hmem hpiece hstart)

end among

/--
**How often a piece of a read is handled.**

Behind `k` spoiled frames it is acknowledged `2 ^ k` times, and a whole frame is delivered
`2 ^ k` times, whatever `rece_ptk` held. The noise and the spoiled frames are quiet: there are no
header bytes in them but those that a frame begins with.
-/
theorem repeated_handlePacket (fd : Int) (stale : Stale) (buf : ReadBuf) (noise : List UInt8)
    (before after : List (Piece × List UInt8)) (x : Piece × List UInt8)
    (hbuf : buf.bytes = noise ++ piecesWithNoise (before ++ x :: after)) (hn : Clean noise)
    (hall : ∀ y ∈ before ++ x :: after, y.1.Quiet y.2) :
    Repeated (handlePacket fd stale buf 0) (noise.length + (piecesWithNoise before).length) x.1
      (2 ^ before.countP fun y => !y.1.ok) := by
  obtain ⟨p, noise'⟩ := x
  have hreturned := (visits_pieces stale hbuf hn hall).1
  have hcount := count_visits_piece stale hbuf hn hall
  have hverdict : ∀ v ∈ ((scanner buf).run stale 0).events,
      v.start = noise.length + (piecesWithNoise before).length → (scanner buf).accepts v = p.ok :=
    fun v hv hstart => accepts_visit_piece stale hbuf hn hall hv hstart
  refine ⟨?_, ?_, ?_, ?_⟩
  · rw [acks_of_returned (returned_handlePacket.trans hreturned), List.map_map]
    rwa [List.map_map] at hcount
  · intro a ha hstart
    rw [acks_of_returned (returned_handlePacket.trans hreturned), List.mem_map] at ha
    obtain ⟨v, hv, rfl⟩ := ha
    simp only [ackOf, code_fillAckPacket, hverdict v hv hstart]
    cases p <;> rfl
  · have hfilter : (delivered (handlePacket fd stale buf 0)).map Prod.fst
        = ((((scanner buf).run stale 0).events.map fun v =>
          (v.start, (scanner buf).accepts v)).filter Prod.snd).map Prod.fst := by
      rw [delivered_handlePacket, List.filter_map, List.map_map, List.map_map]
      rfl
    rw [hfilter, count_filter_snd p.ok, hcount]
    intro t ht hstart
    obtain ⟨v, hv, rfl⟩ := List.mem_map.mp ht
    exact hverdict v hv hstart
  · intro y hy hstart
    rw [delivered_handlePacket, List.mem_map] at hy
    obtain ⟨v, hv, rfl⟩ := hy
    obtain ⟨hmem, haccepts⟩ := List.mem_filter.mp hv
    have hok := (hverdict v hmem hstart).symm.trans haccepts
    cases p with
    | whole m =>
      obtain ⟨hholds, hsize⟩ := holds_whole (hstart.symm ▸ drop_pieces hbuf) (v.env [])
      exact carries_of_holds hholds hsize
    | spoiled f => simp [Piece.ok] at hok

/-- A report of 11 bytes whose CRC is wrong. -/
def spoiledReport : SpoiledFrame where
  rest := [0x02, 0x00, 0x00, 0x00, 0x01, 0x00, 0x0b, 0x00, 0x00]
  seven_le := by decide
  declared := by decide
  rejected := by decide +kernel

/-- Behind two spoiled reports a message is handled four times. -/
theorem repeated_handlePacket_twoReports :
    Repeated
      (handlePacket 4 zeroStale
        ⟨[0x00] ++ piecesWithNoise
          [(.spoiled spoiledReport, []), (.spoiled spoiledReport, [0xbb]), (.whole ⟨0x01, 1, []⟩, [])],
          by decide +kernel⟩ 0)
      24 (.whole ⟨0x01, 1, []⟩) 4 :=
  repeated_handlePacket 4 zeroStale _ [0x00]
    [(.spoiled spoiledReport, []), (.spoiled spoiledReport, [0xbb])] [] (.whole ⟨0x01, 1, []⟩, []) rfl
    (by decide) (by
      intro y hy
      simp only [List.cons_append, List.nil_append, List.mem_cons, List.not_mem_nil, or_false] at hy
      rcases hy with rfl | rfl | rfl
      · show Clean _
        decide
      · show Clean _
        decide
      · exact clean_nil)

/-! ## How much work a read is -/

/-- The headers of a buffer. -/
def headers (buf : List UInt8) : Finset Nat :=
  {q ∈ Finset.range (buf.length - 1) | isHeader buf q = true}

theorem headersFrom_zero (buf : ReadBuf) : (scanner buf).headersFrom 0 = headers buf.bytes := by
  rw [headers, Finset.range_eq_Ico]
  rfl

/-- **A read with `n` headers is acknowledged less than `2 ^ n` times**, whatever it holds. -/
theorem acks_lt_two_pow (fd : Int) (stale : Stale) (buf : ReadBuf) :
    (acks (handlePacket fd stale buf 0)).length < 2 ^ (headers buf.bytes).card := by
  have hwork := Scanner.length_run_lt (S := scanner buf) stale 0
  rw [headersFrom_zero] at hwork
  refine Nat.lt_of_le_of_lt ?_ hwork
  rw [acks_handlePacket, List.length_map]
  exact List.length_filter_le _ _

/-- **Spoiled frames reach the bound**: a read of `n` of them is acknowledged `2 ^ n - 1` times, if there
are no header bytes in them but those that they begin with. -/
theorem length_acks_spoiled (fd : Int) (stale : Stale) (buf : ReadBuf) (noise : List UInt8)
    (items : List (SpoiledFrame × List UInt8))
    (hbuf : buf.bytes = noise ++ piecesWithNoise (items.map fun x => (.spoiled x.1, x.2)))
    (hn : Clean noise) (hall : ∀ x ∈ items, (Piece.spoiled x.1).Quiet x.2) :
    (acks (handlePacket fd stale buf 0)).length + 1 = 2 ^ items.length := by
  have hquiet : ∀ x ∈ items.map (fun x => (Piece.spoiled x.1, x.2)), x.1.Quiet x.2 := by
    intro x hx
    obtain ⟨y, hy, rfl⟩ := List.mem_map.mp hx
    exact hall y hy
  obtain ⟨hreturned, hvisits⟩ := visits_pieces stale hbuf hn hquiet
  rw [acks_of_returned (returned_handlePacket.trans hreturned), List.length_map,
    ← List.length_map (fun v : Visit Stale => (v.start, (scanner buf).accepts v)), hvisits,
    Scanner.length_revisits, length_tilesFrom, List.length_map]
  exact fun t ht => rejected_tilesFrom ht

/-- Three spoiled reports are acknowledged seven times. -/
theorem length_acks_spoiled_threeReports :
    (acks (handlePacket 4 zeroStale
      ⟨[] ++ piecesWithNoise ((List.replicate 3 (spoiledReport, ([] : List UInt8))).map fun x =>
        (.spoiled x.1, x.2)), by decide⟩ 0)).length + 1 = 2 ^ 3 :=
  length_acks_spoiled 4 zeroStale _ [] (List.replicate 3 (spoiledReport, [])) rfl clean_nil
    (by
      intro x hx
      rw [List.eq_of_mem_replicate hx]
      show Clean _
      decide)

end read

end Easn
