import CoService.Easn.Properties.StaleBytes

/-!
# How far the scan gets

What `handle_packet` looks at depends on `rece_ptk`, which an earlier call may have left any bytes in.
This file says what the received bytes alone decide of that, for all prior contents:

* `CanReturn` — the call comes back with some of them
* `Reaches` — the call looks at a header with some of them, where `reaches_of_examines` and
  `exists_examines` are the two directions
* `MayDeclare`, `CanAccept` — what the frame at a header may declare, and whether it may be accepted

The inductions are on the calls for what a run says about the bytes, and on the derivations for the
other direction, where the stale contents are put together call by call (`Stale.join`).
-/

namespace Easn

open Infra

variable {buf : ReadBuf} {stale : Stale} {prior : PacketT} {pos s n : Nat}

/-! ## Looking at one header -/

/-- The verdict on a frame that is whole. -/
def frameCrc (buf : ReadBuf) (start : Nat) : Option Bool :=
  checkCrc ((buf.bytes.drop start).take (frameSize buf start)) (frameSize buf start)

theorem look_whole (hw : Whole buf s) (stale : Stale) :
    (scanner buf).look stale s = ⟨frameSize buf s, frameCrc buf s⟩ := by
  have hsize := sizeofPacket_eq_frameSize (stale []) hw.1
  have hverdict := checkCrc_recePtk (stale []) hw.2
  show (⟨_, checkCrc _ _⟩ : Look) = _
  rw [hsize, hverdict, frameCrc]

/-- Behind a frame that reaches over the end there is nothing to find. -/
theorem find_behind (h : buf.bytes.length - s < n) : (scanner buf).find (s + n) = none := by
  rw [scanner_find, findHeaderPosition, firstFrom_eq_none]
  intro q hq hlt
  omega

/-! ## Which calls come back -/

theorem returned_accept (hs : (scanner buf).find pos = some s)
    (hv : ((scanner buf).look stale s).verdict = some true) :
    ((scanner buf).run stale pos).returned =
      ((scanner buf).run (stale.child .next) (s + ((scanner buf).look stale s).size)).returned := by
  rw [Scanner.run_accept hs hv, Run.returned_andThen, Run.returned_emit, Bool.true_and]
  rfl

theorem returned_reject (hs : (scanner buf).find pos = some s)
    (hv : ((scanner buf).look stale s).verdict = some false) :
    ((scanner buf).run stale pos).returned =
      (((scanner buf).run (stale.child .resync) (s + 2)).returned &&
        ((scanner buf).run (stale.child .next)
          (s + ((scanner buf).look stale s).size)).returned) := by
  rw [Scanner.run_reject hs hv, Run.returned_andThen, Run.returned_emit, Bool.true_and,
    Run.returned_andThen]
  rfl

/-- With some stale bytes the call at `pos` comes back. -/
inductive CanReturn (buf : ReadBuf) : Nat → Prop
  | none {pos : Nat} : (scanner buf).find pos = none → CanReturn buf pos
  | accept {pos s : Nat} : (scanner buf).find pos = some s → Whole buf s →
      frameCrc buf s = some true → CanReturn buf (s + frameSize buf s) → CanReturn buf pos
  | reject {pos s : Nat} : (scanner buf).find pos = some s → Whole buf s →
      frameCrc buf s = some false → CanReturn buf (s + 2) → CanReturn buf (s + frameSize buf s) →
      CanReturn buf pos
  | complete {pos s : Nat} : (scanner buf).find pos = some s → ¬ Whole buf s →
      Completable buf s → CanReturn buf pos
  | cut {pos s : Nat} : (scanner buf).find pos = some s → ¬ Whole buf s → CanReturn buf (s + 2) →
      CanReturn buf pos

/-- Where the prefix of every frame is cut off, stale bytes can end the scan. -/
theorem canReturn_of_lt (h : buf.bytes.length < pos + 9) : CanReturn buf pos := by
  cases hs : (scanner buf).find pos with
  | none => exact .none hs
  | some s =>
    have hle := Scanner.pos_le_of_find hs
    exact .complete hs (fun hw => absurd hw.1 (by omega)) (Or.inl (by omega))

theorem canReturn_of_returned (h : ((scanner buf).run stale pos).returned = true) :
    CanReturn buf pos := by
  induction stale, pos using (scanner buf).call_induction with
  | none stale pos hs => exact .none hs
  | fault stale pos s hs hv => simp [Scanner.run_fault hs hv] at h
  | accept stale pos s hs hv ih =>
    rw [returned_accept hs hv] at h
    by_cases hw : Whole buf s
    · rw [look_whole hw] at hv ih h
      exact .accept hs hw hv (ih h)
    · exact .complete hs hw (completable_of_accepts hw hv)
  | reject stale pos s hs hv ih1 ih2 =>
    rw [returned_reject hs hv, Bool.and_eq_true] at h
    by_cases hw : Whole buf s
    · rw [look_whole hw] at hv ih2 h
      exact .reject hs hw hv (ih1 h.1) (ih2 h.2)
    · exact .cut hs hw (ih1 h.1)

/-! ## Putting stale contents together -/

/-- The contents of a call's `rece_ptk`, and those of the calls that it makes. -/
def Stale.join (prior : PacketT) (resync next : Stale) : Stale
  | [] => prior
  | .resync :: path => resync path
  | .next :: path => next path

section join

variable (prior : PacketT) (resync next : Stale)

@[simp] theorem join_nil : Stale.join prior resync next [] = prior := rfl

@[simp] theorem child_resync_join : (Stale.join prior resync next).child .resync = resync := rfl

@[simp] theorem child_next_join : (Stale.join prior resync next).child .next = next := rfl

end join

/-- Behind a frame that reaches over the end, a call that accepts it is done. -/
theorem returned_of_accepting (hs : (scanner buf).find pos = some s)
    (hsize : buf.bytes.length - s < ((scanner buf).look stale s).size)
    (hv : ((scanner buf).look stale s).verdict = some true) :
    ((scanner buf).run stale pos).returned = true := by
  rw [returned_accept hs hv, Scanner.run_none (find_behind hsize)]
  rfl

/-- Behind a frame that reaches over the end, a call that rejects it is done when the first of its
calls is. -/
theorem returned_of_rejecting (hs : (scanner buf).find pos = some s)
    (hsize : buf.bytes.length - s < ((scanner buf).look stale s).size)
    (hv : ((scanner buf).look stale s).verdict = some false)
    (hr : ((scanner buf).run (stale.child .resync) (s + 2)).returned = true) :
    ((scanner buf).run stale pos).returned = true := by
  rw [returned_reject hs hv, hr, Scanner.run_none (find_behind hsize)]
  rfl

section whole

variable (hs : (scanner buf).find pos = some s) (hw : Whole buf s)

include hs hw

theorem returned_whole_accept (hv : frameCrc buf s = some true) (stale : Stale) :
    ((scanner buf).run stale pos).returned =
      ((scanner buf).run (stale.child .next) (s + frameSize buf s)).returned := by
  have hlook := look_whole hw stale
  have hverdict : ((scanner buf).look stale s).verdict = some true := by rw [hlook, hv]
  have hreturned := returned_accept hs hverdict
  rwa [hlook] at hreturned

theorem returned_whole_reject (hv : frameCrc buf s = some false) (stale : Stale) :
    ((scanner buf).run stale pos).returned = true ↔
      ((scanner buf).run (stale.child .resync) (s + 2)).returned = true ∧
        ((scanner buf).run (stale.child .next) (s + frameSize buf s)).returned = true := by
  have hlook := look_whole hw stale
  have hverdict : ((scanner buf).look stale s).verdict = some false := by rw [hlook, hv]
  have hreturned := returned_reject hs hverdict
  rw [hlook] at hreturned
  rw [hreturned, Bool.and_eq_true]

end whole

/-- **A call comes back with some stale bytes if `CanReturn` says so.** -/
theorem exists_returned (h : CanReturn buf pos) :
    ∃ stale, ((scanner buf).run stale pos).returned = true := by
  induction h with
  | none hs => exact ⟨zeroStale, by rw [Scanner.run_none hs]; rfl⟩
  | accept hs hw hv _ ih =>
    obtain ⟨next, hnext⟩ := ih
    exact ⟨.join .zero zeroStale next, (returned_whole_accept hs hw hv _).trans hnext⟩
  | reject hs hw hv _ _ ih1 ih2 =>
    obtain ⟨resync, hresync⟩ := ih1
    obtain ⟨next, hnext⟩ := ih2
    exact ⟨.join .zero resync next, (returned_whole_reject hs hw hv _).mpr ⟨hresync, hnext⟩⟩
  | complete hs hw hc =>
    obtain ⟨prior, hsize, hcrc⟩ := exists_accepting hw hc
    exact ⟨.join prior zeroStale zeroStale, returned_of_accepting hs hsize hcrc⟩
  | cut hs hw _ ih =>
    obtain ⟨resync, hresync⟩ := ih
    obtain ⟨prior, hsize, hcrc⟩ := exists_rejecting hw
    exact ⟨.join prior resync zeroStale, returned_of_rejecting hs hsize hcrc hresync⟩

/-! ## Which headers are looked at -/

/-- With some stale bytes the call at `pos` looks at the header at a position, itself or further
down. -/
inductive Reaches (buf : ReadBuf) : Nat → Nat → Prop
  | here {pos s : Nat} : (scanner buf).find pos = some s → Reaches buf pos s
  | cut {pos s q : Nat} : (scanner buf).find pos = some s → ¬ Whole buf s →
      Reaches buf (s + 2) q → Reaches buf pos q
  | accept {pos s q : Nat} : (scanner buf).find pos = some s → Whole buf s →
      frameCrc buf s = some true → Reaches buf (s + frameSize buf s) q → Reaches buf pos q
  | resync {pos s q : Nat} : (scanner buf).find pos = some s → Whole buf s →
      frameCrc buf s = some false → Reaches buf (s + 2) q → Reaches buf pos q
  | next {pos s q : Nat} : (scanner buf).find pos = some s → Whole buf s →
      frameCrc buf s = some false → CanReturn buf (s + 2) →
      Reaches buf (s + frameSize buf s) q → Reaches buf pos q

theorem Reaches.header {q : Nat} (h : Reaches buf pos q) : isHeader buf.bytes q = true := by
  induction h with
  | here hs => exact Scanner.header_of_find hs
  | cut _ _ _ ih => exact ih
  | accept _ _ _ _ ih => exact ih
  | resync _ _ _ _ ih => exact ih
  | next _ _ _ _ _ ih => exact ih

theorem Reaches.pos_le {q : Nat} (h : Reaches buf pos q) : pos ≤ q := by
  induction h with
  | here hs => exact Scanner.pos_le_of_find hs
  | cut hs _ _ ih =>
    have hle := Scanner.pos_le_of_find hs
    omega
  | accept hs _ _ _ ih =>
    have hle := Scanner.pos_le_of_find hs
    omega
  | resync hs _ _ _ ih =>
    have hle := Scanner.pos_le_of_find hs
    omega
  | next hs _ _ _ _ ih =>
    have hle := Scanner.pos_le_of_find hs
    omega

/-- Where the prefix of every frame is cut off, every header can be come to. -/
theorem reaches_of_lt {pos q : Nat} (h : buf.bytes.length < pos + 9)
    (hq : isHeader buf.bytes q = true) (hle : pos ≤ q) : Reaches buf pos q := by
  have hstop : (scanner buf).stop = buf.bytes.length - 1 := rfl
  have hlt := lt_of_isHeader hq
  cases hs : (scanner buf).find pos with
  | none => exact absurd hs (Scanner.find_ne_none hq hle (by omega))
  | some s =>
    have hpos := Scanner.pos_le_of_find hs
    rcases Nat.eq_or_lt_of_le (Scanner.le_of_find hs hq hle) with rfl | hbehind
    · exact .here hs
    · have hskip : s + 2 ≤ q := Scanner.skip_le_of_find hs hq hbehind
      exact .cut hs (fun hw => absurd hw.1 (by omega)) (reaches_of_lt (by omega) hq hskip)
termination_by buf.bytes.length - pos

/-- What a run looks at behind a frame that is not whole can be come to behind its header: either
there is nothing, or the prefix was cut off. -/
theorem reaches_behind {q : Nat} (hs : (scanner buf).find pos = some s) (hw : ¬ Whole buf s)
    {ok : Bool} (hv : ((scanner buf).look stale s).verdict = some ok)
    (h : Reaches buf (s + ((scanner buf).look stale s).size) q) : Reaches buf pos q := by
  refine .cut hs hw ?_
  rcases Nat.lt_or_ge buf.bytes.length (s + 9) with hcut | h9
  · have hsize : 2 ≤ ((scanner buf).look stale s).size := two_le_of_checkCrc hv
    have hle := h.pos_le
    exact reaches_of_lt (by omega) h.header (by omega)
  · have hover : buf.bytes.length - s < ((scanner buf).look stale s).size :=
      lt_sizeofPacket_of_not_whole h9 hw
    have hnone := find_behind hover
    cases h <;> simp_all

/-- **What a run looks at, the received bytes let it come to.** -/
theorem reaches_of_examines {v : Visit Stale} (h : (scanner buf).Examines stale pos v) :
    Reaches buf pos v.start := by
  induction h with
  | here hs => exact .here hs
  | @accept stale pos s v hs hv _ ih =>
    by_cases hw : Whole buf s
    · rw [look_whole hw] at hv ih
      exact .accept hs hw hv ih
    · exact reaches_behind hs hw hv ih
  | @resync stale pos s v hs hv _ ih =>
    by_cases hw : Whole buf s
    · rw [look_whole hw] at hv
      exact .resync hs hw hv ih
    · exact .cut hs hw ih
  | @next stale pos s v hs hv hr _ ih =>
    by_cases hw : Whole buf s
    · rw [look_whole hw] at hv ih
      exact .next hs hw hv (canReturn_of_returned (Scanner.returned_run_iff.mpr hr)) ih
    · exact reaches_behind hs hw hv ih

/-- **Whatever the received bytes let a run come to, some run looks at**, with any bytes of its own in
`rece_ptk`. -/
theorem exists_examines {q : Nat} (h : Reaches buf pos q) (env : Stale) :
    ∃ stale, (scanner buf).Examines stale pos ⟨env, q⟩ := by
  induction h with
  | here hs => exact ⟨env, .here hs⟩
  | cut hs hw _ ih =>
    obtain ⟨resync, hresync⟩ := ih
    obtain ⟨prior, _, hcrc⟩ := exists_rejecting hw
    exact ⟨.join prior resync zeroStale, .resync hs hcrc hresync⟩
  | @accept pos s q hs hw hv _ ih =>
    obtain ⟨next, hnext⟩ := ih
    have hlook := look_whole hw (.join .zero zeroStale next)
    refine ⟨.join .zero zeroStale next, .accept hs (by rw [hlook, hv]) ?_⟩
    rw [hlook]
    exact hnext
  | @resync pos s q hs hw hv _ ih =>
    obtain ⟨resync, hresync⟩ := ih
    have hlook := look_whole hw (.join .zero resync zeroStale)
    exact ⟨.join .zero resync zeroStale, .resync hs (by rw [hlook, hv]) hresync⟩
  | @next pos s q hs hw hv hreturn _ ih =>
    obtain ⟨resync, hresync⟩ := exists_returned hreturn
    obtain ⟨next, hnext⟩ := ih
    have hlook := look_whole hw (.join .zero resync next)
    have hreturned := Scanner.returned_run_iff.mp hresync
    refine ⟨.join .zero resync next, .next hs (by rw [hlook, hv]) hreturned ?_⟩
    rw [hlook]
    exact hnext

/-! ## What the frame at a header may be -/

/-- The bytes of the length field that were received leave this length open. -/
def MayDeclare (buf : ReadBuf) (start n : Nat) : Prop :=
  n < 2 ^ 16 ∧ (buf.bytes.drop (start + 7)).take 2 <+: htons n

theorem length_lengthField (p : PacketT) : p.length.length = 2 := by
  have hmax : maxSize = 16384 := rfl
  simp [PacketT.length, p.length_buf, hmax]

/-- A length field is what `htons` makes of its value. -/
theorem htons_ntohs_length (p : PacketT) : htons (ntohs p.length) = p.length := by
  have hback := beBytes_beNat p.length
  rwa [length_lengthField] at hback

/-- Bytes that were received in front of a length field do not keep it from being completed. -/
theorem exists_length_eq {start : Nat} (h : (buf.bytes.drop (start + 7)).take 2 <+: htons n) :
    ∃ prior, (recePtk prior buf start).length = htons n := by
  have hmax : maxSize = 16384 := rfl
  have hzero := PacketT.zero.length_buf
  have hfield : (htons n).length = 2 := length_beBytes ..
  let prior : PacketT := ⟨overwrite PacketT.zero.buf 7 (htons n), by
    rw [length_overwrite (by omega), hzero]⟩
  have hprior : (prior.buf.drop 7).take 2 = htons n := by
    have h7 : 7 ≤ PacketT.zero.buf.length := by omega
    have hread := read_overwrite h7 (htons n)
    rwa [hfield] at hread
  have hlen := length_lengthField (recePtk prior buf start)
  refine ⟨prior, List.ext_getElem? fun i => ?_⟩
  rcases Nat.lt_or_ge i 2 with hi | hi
  · rw [PacketT.length, List.getElem?_take_of_lt hi, List.getElem?_drop, recePtk, buf_memcpy]
    rcases Nat.lt_or_ge (7 + i) (buf.bytes.drop start).length with hin | hout
    · rw [List.getElem?_append_left hin, List.getElem?_drop]
      have hlt : i < ((buf.bytes.drop (start + 7)).take 2).length := by
        rw [List.length_drop] at hin
        rw [List.length_take, List.length_drop]
        omega
      rw [List.prefix_iff_getElem?.mp h i hlt, ← List.getElem?_eq_getElem hlt,
        List.getElem?_take_of_lt hi, List.getElem?_drop, Nat.add_assoc]
    · rw [List.getElem?_append_right hout, List.getElem?_drop, Nat.add_sub_cancel' hout,
        ← List.getElem?_drop, ← List.getElem?_take_of_lt hi, hprior]
  · rw [List.getElem?_eq_none (by omega), List.getElem?_eq_none (by omega)]

/-- **The lengths that are left open are those that `rece_ptk` may come to hold.** -/
theorem mayDeclare_iff :
    MayDeclare buf s n ↔ ∃ prior, ntohs (recePtk prior buf s).length = n := by
  constructor
  · rintro ⟨hlt, hreceived⟩
    obtain ⟨prior, hfield⟩ := exists_length_eq hreceived
    refine ⟨prior, ?_⟩
    rw [hfield]
    exact beNat_beBytes_of_lt hlt
  · rintro ⟨prior, rfl⟩
    refine ⟨?_, ?_⟩
    · have hbound := beNat_lt (recePtk prior buf s).length
      rwa [length_lengthField] at hbound
    · rw [htons_ntohs_length, PacketT.length, recePtk, buf_memcpy, ← List.drop_drop, List.drop_append,
        List.take_append]
      exact List.prefix_append _ _

/-- A length field that was received leaves nothing open. -/
theorem mayDeclare_iff_eq (h9 : s + 9 ≤ buf.bytes.length) :
    MayDeclare buf s n ↔ declaredLength buf s = n := by
  rw [mayDeclare_iff]
  constructor
  · rintro ⟨prior, hlength⟩
    rwa [length_recePtk prior h9] at hlength
  · intro hlength
    exact ⟨.zero, (length_recePtk .zero h9).trans hlength⟩

/-- The frame at `start` may be accepted: it is whole and its CRC is right, or stale bytes may complete
it. -/
def CanAccept (buf : ReadBuf) (start : Nat) : Prop :=
  if Whole buf start then frameCrc buf start = some true else Completable buf start

/-- **A frame may be accepted if it is with some bytes in `rece_ptk`.** -/
theorem canAccept_iff : CanAccept buf s ↔ ∃ prior,
    checkCrc (recePtk prior buf s).buf (sizeofPacket (recePtk prior buf s)) = some true := by
  unfold CanAccept
  split
  · next hw =>
    have hverdict : ∀ prior, checkCrc (recePtk prior buf s).buf (sizeofPacket (recePtk prior buf s))
        = frameCrc buf s := fun prior => congrArg Look.verdict (look_whole hw fun _ => prior)
    exact ⟨fun h => ⟨.zero, (hverdict _).trans h⟩, fun ⟨prior, h⟩ => (hverdict prior).symm.trans h⟩
  · next hw =>
    constructor
    · intro hc
      obtain ⟨prior, _, hcrc⟩ := exists_accepting hw hc
      exact ⟨prior, hcrc⟩
    · rintro ⟨prior, hcrc⟩
      exact completable_of_accepts hw hcrc

end Easn

