import CoService.Easn.Properties.Repeats

/-!
# How deep `handle_packet` nests

`handle_packet` calls itself for what lies behind a packet, and each call has a `rece_ptk` of
`MAX_SIZE` bytes of its own. So the stack that a read takes grows with the number of packets in it,
and not with its length alone.

* `nesting_bounds` — between the headers that the plain scan looks at and all headers, for every read
* `nesting_pieces` — for whole and spoiled frames with noise between them there is a call for each
* `deepest_handlePacket` — `nesting` is what the log of the calls shows
-/

namespace Easn

open Infra

/--
How many calls of `handle_packet` are open at once, at most, while
`handle_packet(fd, buf, pos, len, callback)` runs. The call itself is one of them.

The recursion is that of `handlePacket`: the last `if` is not reached if the call after a CRC error
does not come back.
-/
def nesting (fd : Int) (stale : Stale) (buf : ReadBuf) (pos : Nat) : Nat :=
  match _hs : findHeaderPosition buf.bytes pos with
  | none => 1
  | some start =>
    match _hc : checkCrc (recePtk (stale []) buf start).buf (sizeofPacket (recePtk (stale []) buf start)) with
    | none => 1
    | some ok =>
      1 + max (if ok then 0 else nesting fd (stale.child .resync) buf (start + 2))
        (if (ok || (handlePacket fd (stale.child .resync) buf (start + 2)).returned) ∧
            ntohs (recePtk (stale []) buf start).length < buf.bytes.length - start then
          nesting fd (stale.child .next) buf (start + sizeofPacket (recePtk (stale []) buf start))
        else 0)
termination_by buf.bytes.length - pos
decreasing_by
  · have h1 := findHeaderPosition_bounds _hs
    omega
  · have h1 := findHeaderPosition_bounds _hs
    have h2 := two_le_of_checkCrc _hc
    omega

/-- The calls that the last `if` of `handle_packet` opens. -/
def nestingRest (fd : Int) (stale : Stale) (buf : ReadBuf) (start : Nat) : Nat :=
  if ntohs (recePtk (stale []) buf start).length < buf.bytes.length - start then
    nesting fd (stale.child .next) buf (start + sizeofPacket (recePtk (stale []) buf start))
  else 0

section cases

variable {fd : Int} {stale : Stale} {buf : ReadBuf} {pos s : Nat}

theorem nesting_none (hs : findHeaderPosition buf.bytes pos = none) :
    nesting fd stale buf pos = 1 := by
  rw [nesting]
  split <;> simp_all

theorem nesting_fault (hs : findHeaderPosition buf.bytes pos = some s)
    (hv : ((scanner buf).look stale s).verdict = none) : nesting fd stale buf pos = 1 := by
  rw [scanner_verdict] at hv
  rw [nesting]
  split
  · rfl
  · next s' hs' =>
    obtain rfl : s' = s := by simpa [hs] using hs'.symm
    split <;> simp_all

theorem nesting_accept (hs : findHeaderPosition buf.bytes pos = some s)
    (hv : ((scanner buf).look stale s).verdict = some true) :
    nesting fd stale buf pos = 1 + nestingRest fd stale buf s := by
  rw [scanner_verdict] at hv
  rw [nesting]
  split
  · simp_all
  · next s' hs' =>
    obtain rfl : s' = s := by simpa [hs] using hs'.symm
    split
    · simp_all
    · next ok hok =>
      obtain rfl : ok = true := by simpa [hv] using hok.symm
      simp [nestingRest]

/-- After a CRC error. -/
theorem nesting_reject (hs : findHeaderPosition buf.bytes pos = some s)
    (hv : ((scanner buf).look stale s).verdict = some false) :
    nesting fd stale buf pos = 1 + max (nesting fd (stale.child .resync) buf (s + 2))
      (if (handlePacket fd (stale.child .resync) buf (s + 2)).returned then
        nestingRest fd stale buf s
      else 0) := by
  rw [scanner_verdict] at hv
  rw [nesting]
  split
  · simp_all
  · next s' hs' =>
    obtain rfl : s' = s := by simpa [hs] using hs'.symm
    split
    · simp_all
    · next ok hok =>
      obtain rfl : ok = false := by simpa [hv] using hok.symm
      cases (handlePacket fd (stale.child .resync) buf (s' + 2)).returned <;> simp [nestingRest]

theorem nesting_pos : 0 < nesting fd stale buf pos := by
  rw [nesting]
  split
  · exact Nat.one_pos
  · split
    · exact Nat.one_pos
    · omega

end cases

/-! ## The calls in the log

The events of a run tell which calls are open: a call that looks at a header names it, and so does
the call that makes a recursive one. `deepest_handlePacket` says that `nesting` counts these calls.
-/

/-- The calls that are open, the last one first, each with the header that it has found. A recursive
call is made by the call of its header, and all calls above that one have come back. -/
def openCalls (calls : List (Option Nat)) : Event → List (Option Nat)
  | .checkCrc start _ => some start :: calls.tail
  | .write _ _ _ => calls
  | .callback _ _ => calls
  | .recurse start _ => none :: calls.dropWhile fun call => call != some start

/-- How many calls are open at once, at most, from `calls` on. -/
def deepest (calls : List (Option Nat)) : List Event → Nat
  | [] => calls.length
  | e :: es => max calls.length (deepest (openCalls calls e) es)

theorem length_le_deepest (calls : List (Option Nat)) (es : List Event) :
    (es.foldl openCalls calls).length ≤ deepest calls es := by
  induction es generalizing calls with
  | nil => exact Nat.le_refl _
  | cons e es ih => exact Nat.le_trans (ih (openCalls calls e)) (Nat.le_max_right ..)

theorem deepest_append (calls : List (Option Nat)) (es es' : List Event) :
    deepest calls (es ++ es') = max (deepest calls es) (deepest (es.foldl openCalls calls) es') := by
  induction es generalizing calls with
  | nil =>
    have hle : calls.length ≤ deepest calls es' := by
      cases es' with
      | nil => exact Nat.le_refl _
      | cons e es' => exact Nat.le_max_left ..
    exact (Nat.max_eq_right hle).symm
  | cons e es ih => simp only [List.cons_append, deepest, List.foldl_cons, ih, Nat.max_assoc]

/-- The calls `opened` were made behind the header `start`. -/
def MadeBehind (start : Nat) (opened : List (Option Nat)) : Prop :=
  ∀ q, some q ∈ opened → start < q

section log

variable {fd : Int} {stale : Stale} {buf : ReadBuf} {pos s : Nat} {below opened : List (Option Nat)}

/-- The call that is made next belongs to the header `s`. -/
theorem openCalls_recurse (h : MadeBehind s opened) (p : Nat) :
    openCalls (opened ++ some s :: below) (.recurse s p) = none :: some s :: below := by
  have hdrop : (opened ++ some s :: below).dropWhile (fun call => call != some s)
      = some s :: below := by
    rw [List.dropWhile_append_of_pos, List.dropWhile_cons_of_neg (by simp)]
    intro call hcall
    rw [bne_iff_ne]
    rintro rfl
    exact Nat.lt_irrefl s (h s hcall)
  rw [openCalls, hdrop]

/-- The calls that are left open behind the header `s`: those that `handle_packet` has made for the
rest of the read, if there is any. -/
theorem foldl_handleRest (h : MadeBehind s opened)
    (ih : ∃ more, (handlePacket fd (stale.child .next) buf
        (s + sizeofPacket (recePtk (stale []) buf s))).events.foldl openCalls
          (none :: some s :: below) = more ++ some s :: below ∧ MadeBehind s more) :
    ∃ more, (handleRest fd stale buf s).events.foldl openCalls (opened ++ some s :: below)
      = more ++ some s :: below ∧ MadeBehind s more := by
  unfold handleRest
  split
  · rw [Run.events_emit_andThen, List.singleton_append, List.foldl_cons, openCalls_recurse h]
    exact ih
  · exact ⟨opened, rfl, h⟩

/-- The call that has found the header is open as well. -/
theorem exists_opened (below : List (Option Nat)) (hle : pos ≤ s) (h : MadeBehind s opened) :
    ∃ calls, opened ++ some s :: below = calls ++ below ∧ ∀ q, some q ∈ calls → pos ≤ q := by
  refine ⟨opened ++ [some s], by simp, fun q hq => ?_⟩
  rcases List.mem_append.mp hq with hq | hq
  · exact Nat.le_trans hle (Nat.le_of_lt (h q hq))
  · obtain rfl : q = s := by simpa using hq
    exact hle

theorem madeBehind_nil (s : Nat) : MadeBehind s [] := by simp [MadeBehind]

/-- What a call leaves open lies above what was open before, and was made behind `pos`. -/
theorem foldl_handlePacket (fd : Int) (stale : Stale) (buf : ReadBuf) (pos : Nat)
    (below : List (Option Nat)) :
    ∃ opened, (handlePacket fd stale buf pos).events.foldl openCalls (none :: below)
      = opened ++ below ∧ ∀ q, some q ∈ opened → pos ≤ q := by
  induction stale, pos using (scanner buf).call_induction generalizing below with
  | none stale pos hs =>
    rw [handlePacket_none hs]
    exact ⟨[none], rfl, by simp⟩
  | fault stale pos s hs hv =>
    rw [handlePacket_fault hs hv]
    exact exists_opened below (Scanner.pos_le_of_find hs) (madeBehind_nil s)
  | accept stale pos s hs hv ih =>
    have hsize : s < s + sizeofPacket (recePtk (stale []) buf s) := by
      have htwo := two_le_of_checkCrc hv
      omega
    obtain ⟨next, hnext, hlt⟩ := ih (some s :: below)
    obtain ⟨more, hmore, hbehind⟩ := foldl_handleRest (madeBehind_nil s)
      ⟨next, hnext, fun q hq => Nat.lt_of_lt_of_le hsize (hlt q hq)⟩
    rw [handlePacket_accept hs hv, Run.events_emit_andThen, List.foldl_append]
    obtain ⟨calls, hcalls, hle⟩ := exists_opened below (Scanner.pos_le_of_find hs) hbehind
    exact ⟨calls, hmore.trans hcalls, hle⟩
  | reject stale pos s hs hv ih1 ih2 =>
    have hsize : s < s + sizeofPacket (recePtk (stale []) buf s) := by
      have htwo := two_le_of_checkCrc hv
      omega
    obtain ⟨resync, hresync, hlt⟩ := ih1 (some s :: below)
    obtain ⟨next, hnext, hlt'⟩ := ih2 (some s :: below)
    have hbehind : MadeBehind s resync := fun q hq =>
      Nat.lt_of_lt_of_le (Nat.lt_add_of_pos_right (scanner buf).skip_pos) (hlt q hq)
    rw [handlePacket_reject hs hv, Run.events_emit_andThen, List.foldl_append]
    have hcall : [Event.checkCrc s (sizeofPacket (recePtk (stale []) buf s)),
        .write fd s (fillAckPacket .init (recePtk (stale []) buf s) .crcError),
        .recurse s (s + 2)].foldl openCalls (none :: below) = none :: some s :: below :=
      openCalls_recurse (madeBehind_nil s) (s + 2)
    rw [hcall, Run.events_andThen, List.foldl_append]
    simp only [scanner_child, scanner_skip] at hresync
    rw [hresync]
    split
    · obtain ⟨more, hmore, hbehind'⟩ := foldl_handleRest hbehind
        ⟨next, hnext, fun q hq => Nat.lt_of_lt_of_le hsize (hlt' q hq)⟩
      obtain ⟨calls, hcalls, hle⟩ := exists_opened below (Scanner.pos_le_of_find hs) hbehind'
      exact ⟨calls, hmore.trans hcalls, hle⟩
    · exact exists_opened below (Scanner.pos_le_of_find hs) hbehind

/-- The calls that the rest of the read opens. -/
theorem deepest_handleRest (h : MadeBehind s opened)
    (ih : deepest (none :: some s :: below) (handlePacket fd (stale.child .next) buf
        (s + sizeofPacket (recePtk (stale []) buf s))).events
      = (some s :: below).length + nesting fd (stale.child .next) buf
        (s + sizeofPacket (recePtk (stale []) buf s))) :
    deepest (opened ++ some s :: below) (handleRest fd stale buf s).events
      = max (opened ++ some s :: below).length
        ((some s :: below).length + nestingRest fd stale buf s) := by
  unfold handleRest nestingRest
  split
  · rw [Run.events_emit_andThen, List.singleton_append, deepest, openCalls_recurse h, ih]
  · simp [deepest]

/-- **`nesting` counts the calls that the log of `handle_packet` shows to be open.** -/
theorem deepest_handlePacket (fd : Int) (stale : Stale) (buf : ReadBuf) (pos : Nat)
    (below : List (Option Nat)) :
    deepest (none :: below) (handlePacket fd stale buf pos).events
      = below.length + nesting fd stale buf pos := by
  induction stale, pos using (scanner buf).call_induction generalizing below with
  | none stale pos hs =>
    rw [handlePacket_none hs, nesting_none hs]
    rfl
  | fault stale pos s hs hv =>
    rw [handlePacket_fault hs hv, nesting_fault hs hv]
    simp [deepest, openCalls, Run.fault]
  | accept stale pos s hs hv ih =>
    have hrest := deepest_handleRest (madeBehind_nil s) (ih (some s :: below))
    rw [handlePacket_accept hs hv, nesting_accept hs hv, Run.events_emit_andThen, deepest_append]
    show max (deepest (none :: below) _) (deepest ([] ++ some s :: below) _) = _
    rw [hrest]
    simp only [deepest, openCalls, List.tail_cons, List.length_cons, List.nil_append]
    omega
  | reject stale pos s hs hv ih1 ih2 =>
    obtain ⟨resync, hresync, hlt⟩ := foldl_handlePacket fd (stale.child .resync) buf (s + 2)
      (some s :: below)
    have hbehind : MadeBehind s resync := fun q hq =>
      Nat.lt_of_lt_of_le (Nat.lt_add_of_pos_right (scanner buf).skip_pos) (hlt q hq)
    have hle := length_le_deepest (none :: some s :: below)
      (handlePacket fd (stale.child .resync) buf (s + 2)).events
    have hresync' := ih1 (some s :: below)
    have hrest := deepest_handleRest hbehind (ih2 (some s :: below))
    simp only [scanner_child, scanner_skip] at hresync'
    rw [handlePacket_reject hs hv, nesting_reject hs hv, Run.events_emit_andThen, deepest_append]
    have hcall : [Event.checkCrc s (sizeofPacket (recePtk (stale []) buf s)),
        .write fd s (fillAckPacket .init (recePtk (stale []) buf s) .crcError),
        .recurse s (s + 2)].foldl openCalls (none :: below) = none :: some s :: below :=
      openCalls_recurse (madeBehind_nil s) (s + 2)
    rw [hcall, Run.events_andThen, deepest_append, hresync', hresync]
    rw [hresync, hresync'] at hle
    -- the call after the CRC error is there already when the last three events are through
    have hpos : 0 < nesting fd (stale.child .resync) buf (s + 2) := nesting_pos
    have hopened : deepest (none :: below)
        [.checkCrc s (sizeofPacket (recePtk (stale []) buf s)),
          .write fd s (fillAckPacket .init (recePtk (stale []) buf s) .crcError),
          .recurse s (s + 2)] = below.length + 2 := by
      simp [deepest, openCalls]
    rw [hopened]
    simp only [List.length_cons] at hle hrest ⊢
    split
    · rw [hrest]
      omega
    · simp only [deepest]
      omega

end log

/-! ## Every read -/

section bounds

variable {fd : Int} {stale : Stale} {buf : ReadBuf} {pos s : Nat}

theorem nestingRest_le (fd : Int) (stale : Stale) (buf : ReadBuf) (s : Nat) :
    nestingRest fd stale buf s ≤ nesting fd (stale.child .next) buf
      (s + sizeofPacket (recePtk (stale []) buf s)) := by
  unfold nestingRest
  split
  · exact Nat.le_refl _
  · exact Nat.zero_le _

/-- Each call on the stack but the last one has found a header of its own. -/
theorem nesting_le_headersFrom (fd : Int) (stale : Stale) (buf : ReadBuf) (pos : Nat) :
    nesting fd stale buf pos ≤ ((scanner buf).headersFrom pos).card + 1 := by
  induction stale, pos using (scanner buf).call_induction with
  | none stale pos hs =>
    rw [nesting_none hs]
    omega
  | fault stale pos s hs hv =>
    rw [nesting_fault hs hv]
    omega
  | accept stale pos s hs hv ih =>
    have hsize := (scanner buf).size_pos stale s (by rw [hv]; simp)
    have hcard := Scanner.card_headersFrom_lt hs (Nat.lt_add_of_pos_right hsize)
    have hrest := nestingRest_le fd stale buf s
    rw [nesting_accept hs hv]
    simp only [scanner_child, scanner_size] at ih hcard
    omega
  | reject stale pos s hs hv ih1 ih2 =>
    have hsize := (scanner buf).size_pos stale s (by rw [hv]; simp)
    have hskip := Scanner.card_headersFrom_lt hs (Nat.lt_add_of_pos_right (scanner buf).skip_pos)
    have hnext := Scanner.card_headersFrom_lt hs (Nat.lt_add_of_pos_right hsize)
    have hrest := nestingRest_le fd stale buf s
    rw [nesting_reject hs hv]
    simp only [scanner_child, scanner_size, scanner_skip] at ih1 ih2 hskip hnext
    split <;> omega

/-- What the plain scan looks at is looked at in calls that are open together. -/
theorem length_scan_le_nesting (fd : Int) (stale : Stale) (buf : ReadBuf) (pos : Nat) :
    ((scanner buf).scan stale pos).length ≤ nesting fd stale buf pos := by
  induction stale, pos using (scanner buf).call_induction with
  | none stale pos hs =>
    rw [Scanner.scan_none hs]
    exact Nat.zero_le _
  | fault stale pos s hs hv =>
    rw [Scanner.scan_fault hs hv]
    exact nesting_pos
  | accept stale pos s hs hv ih =>
    rw [Scanner.scan_accept hs hv, nesting_accept hs hv, List.length_cons, nestingRest]
    simp only [scanner_child, scanner_size] at ih ⊢
    split
    · omega
    · next hend =>
      -- no call is made where it would find nothing
      have hnone : (scanner buf).find (s + sizeofPacket (recePtk (stale []) buf s)) = none :=
        findHeaderPosition_behind hend
      rw [Scanner.scan_none hnone, List.length_nil]
  | reject stale pos s hs hv ih _ =>
    rw [Scanner.scan_reject hs hv, nesting_reject hs hv, List.length_cons]
    simp only [scanner_child, scanner_skip] at ih ⊢
    omega

/--
**How deep a read nests**, whatever it holds.

The calls that are open at once are at least as many as the headers that a plain scan from left to
right looks at, and at most one more than the headers of the read.
-/
theorem nesting_bounds (fd : Int) (stale : Stale) (buf : ReadBuf) :
    ((scanner buf).scan stale 0).length ≤ nesting fd stale buf 0 ∧
      nesting fd stale buf 0 ≤ (headers buf.bytes).card + 1 := by
  refine ⟨length_scan_le_nesting fd stale buf 0, ?_⟩
  rw [← headersFrom_zero]
  exact nesting_le_headersFrom fd stale buf 0

/-- Only the first header from there on matters. -/
theorem nesting_congr {pos' : Nat} (h : (scanner buf).find pos = (scanner buf).find pos') :
    nesting fd stale buf pos = nesting fd stale buf pos' := by
  cases hs : (scanner buf).find pos' with
  | none =>
    rw [nesting_none hs, nesting_none (h.trans hs)]
  | some s =>
    cases hv : ((scanner buf).look stale s).verdict with
    | none => rw [nesting_fault hs hv, nesting_fault (h.trans hs) hv]
    | some ok =>
      cases ok with
      | true => rw [nesting_accept hs hv, nesting_accept (h.trans hs) hv]
      | false => rw [nesting_reject hs hv, nesting_reject (h.trans hs) hv]

end bounds

/-! ## Whole and spoiled frames -/

/-- Behind the last piece there is one more call, which finds nothing. There is none behind a whole
frame that ends with the read. -/
def calledBehind (items : List (Piece × List UInt8)) : Bool :=
  items.getLast?.all fun x => !x.1.ok || !x.2.isEmpty

theorem calledBehind_cons (x : Piece × List UInt8) {items : List (Piece × List UInt8)}
    (h : items ≠ []) : calledBehind (x :: items) = calledBehind items := by
  obtain ⟨y, items, rfl⟩ := List.exists_cons_of_ne_nil h
  rw [calledBehind, List.getLast?_cons_cons, calledBehind]

section pieces

variable {fd : Int} {buf : ReadBuf}

/-- The last `if` compares the size of the packet with what there is of it. -/
theorem length_lt_iff (stale : Stale) (buf : ReadBuf) (s : Nat) :
    ntohs (recePtk (stale []) buf s).length < buf.bytes.length - s ↔
      sizeofPacket (recePtk (stale []) buf s) < buf.bytes.length - s := by
  have hle := buf.length_le
  have hsize := sizeofPacket_eq_min (recePtk (stale []) buf s)
  omega

/-- What the last `if` opens behind a piece. -/
theorem nestingRest_piece {p : Piece} {s : Nat} {rest : List UInt8}
    (hdrop : buf.bytes.drop s = p.bytes ++ rest) (stale : Stale) :
    nestingRest fd stale buf s = if rest = [] then 0
      else nesting fd (stale.child .next) buf (s + p.bytes.length) := by
  have hsize : sizeofPacket (recePtk (stale []) buf s) = p.bytes.length :=
    congrArg Look.size (look_piece hdrop stale)
  have hlen := congrArg List.length hdrop
  rw [List.length_drop, List.length_append] at hlen
  have hlt := length_lt_iff stale buf s
  rw [hsize, hlen] at hlt
  unfold nestingRest
  rw [hsize, hlen]
  cases rest with
  | nil => rw [if_neg (by rw [hlt, List.length_nil]; omega), if_pos rfl]
  | cons b rest => rw [if_pos (by rw [hlt, List.length_cons]; omega), if_neg (by simp)]

/-- The call behind a piece, if there is one. -/
theorem nestingRest_first (fd : Int) {pre noise noise' : List UInt8} {p : Piece}
    {items : List (Piece × List UInt8)} (hfirst : FirstPiece buf pre noise p noise' items)
    (stale : Stale) : nestingRest fd stale buf (pre.length + noise.length) =
      if noise' = [] ∧ items = [] then 0
      else nesting fd (stale.child .next) buf (pre ++ (noise ++ p.bytes)).length := by
  have hempty : noise' ++ piecesWithNoise items = [] ↔ noise' = [] ∧ items = [] := by
    rw [List.append_eq_nil_iff]
    refine and_congr_right fun _ => ⟨fun h => ?_, fun h => h ▸ rfl⟩
    cases items with
    | nil => rfl
    | cons x items =>
      obtain ⟨body, hbody⟩ := x.1.bytes_eq_cons
      simp [piecesWithNoise, hbody] at h
  rw [nestingRest_piece hfirst.drop, hfirst.length_eq]
  simp only [hempty]

/-- There is a call for each piece. The induction is on the pieces. -/
theorem nesting_of_pieces (fd : Int) : ∀ (items : List (Piece × List UInt8)) (pre noise : List UInt8)
    (stale : Stale), buf.bytes = pre ++ (noise ++ piecesWithNoise items) → Clean noise →
    (∀ x ∈ items, x.1.Quiet x.2) →
    nesting fd stale buf pre.length = items.length + (calledBehind items).toNat
  | [], pre, noise, stale, hbuf, hn, _ => by
    rw [nesting_none]
    · rfl
    · rw [hbuf]
      simpa [piecesWithNoise] using findHeaderPosition_noise pre hn
  | (p, noise') :: items, pre, noise, stale, hbuf, hn, hall => by
    have hquiet : ∀ x ∈ items, x.1.Quiet x.2 := fun x hx => hall x (List.mem_cons_of_mem _ hx)
    have hfirst := FirstPiece.of_bytes hbuf hn (hall (p, noise') List.mem_cons_self)
    have ih := fun stale => nesting_of_pieces fd items (pre ++ (noise ++ p.bytes)) noise' stale
      hfirst.bytes hfirst.clean hquiet
    have hlook := look_piece hfirst.drop stale
    have hrest := nestingRest_first fd hfirst stale
    rw [ih] at hrest
    cases p with
    | whole m =>
      rw [nesting_accept hfirst.find (congrArg Look.verdict hlook), hrest]
      by_cases hitems : items = []
      · subst hitems
        cases noise' <;> rfl
      · rw [if_neg fun h => hitems h.2, calledBehind_cons _ hitems, List.length_cons]
        omega
    | spoiled f =>
      have hresync : nesting fd (stale.child .resync) buf (pre.length + noise.length + 2)
          = items.length + (calledBehind items).toNat := by
        rw [nesting_congr (hfirst.inside rfl), ← hfirst.length_eq]
        exact ih _
      have hbehind : calledBehind ((.spoiled f, noise') :: items) = calledBehind items := by
        by_cases hitems : items = []
        · subst hitems
          rfl
        · exact calledBehind_cons _ hitems
      rw [nesting_reject hfirst.find (congrArg Look.verdict hlook), hrest, hresync, hbehind,
        List.length_cons]
      split_ifs <;> omega

/--
**A read nests as deep as it has frames**, whole or spoiled, and one call deeper if something is
called behind the last one. Neither the noise nor a spoiled frame with the noise behind it has the two
header bytes in it, but for the frame's own.
-/
theorem nesting_pieces (fd : Int) (stale : Stale) (buf : ReadBuf) (noise : List UInt8)
    (items : List (Piece × List UInt8)) (hbuf : buf.bytes = noise ++ piecesWithNoise items)
    (hn : Clean noise) (hall : ∀ x ∈ items, x.1.Quiet x.2) :
    nesting fd stale buf 0 = items.length + (calledBehind items).toNat :=
  nesting_of_pieces fd items [] noise stale (by simpa using hbuf) hn hall

/-- The shortest frames that there are. -/
def shortestFrames (n : Nat) : List (Piece × List UInt8) :=
  List.replicate n (.whole ⟨typeReport, 1, []⟩, [])

theorem length_shortestFrames (n : Nat) : (piecesWithNoise (shortestFrames n)).length = n * 11 := by
  simp [piecesWithNoise, shortestFrames, Piece.bytes, length_encode, Message.size]

/-- A read has room for 1489 frames, and so for as many calls. (Whether a coroutine's stack has room for
their `rece_ptk`s is another matter: it is not part of the model.) -/
theorem nesting_pieces_shortest :
    nesting 4 zeroStale ⟨[] ++ piecesWithNoise (shortestFrames 1489), by
      rw [List.nil_append, length_shortestFrames]
      decide⟩ 0
      = (shortestFrames 1489).length + (calledBehind (shortestFrames 1489)).toNat :=
  nesting_pieces 4 zeroStale _ [] (shortestFrames 1489) rfl clean_nil (by
    intro x hx
    rw [List.eq_of_mem_replicate hx]
    exact clean_nil)

end pieces

end Easn
