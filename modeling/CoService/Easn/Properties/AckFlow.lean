import CoService.Easn.Properties.Reach
import CoService.Easn.Roundtrip.Ack

/-!
# What stale bytes do to the acknowledgements

Two runs on one buffer that differ in what `rece_ptk` held before. They write the same bytes as long
as every frame they look at is whole. A frame that is not is looked at all the same, and what was in
`rece_ptk` decides how it is acknowledged, if it is `Completable`.

`Leaks` follows the search through the received bytes alone, as `CanReturn` does. The inductions are
on the calls for "what does not leak is the same" and on the derivation of `Leaks` for the other
direction, where the stale contents of both runs are put together call by call (`Stale.join`).
-/

namespace Easn

open Infra

variable {buf : ReadBuf} {stale stale' : Stale} {pos s n : Nat}

/-! ## Looking at one header -/

/-- With a whole prefix, an acknowledgement depends on stale bytes by its code only. -/
theorem ackOf_eq {v v' : Visit Stale} (hstart : v.start = v'.start)
    (h9 : v.start + 9 ≤ buf.bytes.length)
    (haccepts : (scanner buf).accepts v = (scanner buf).accepts v') : ackOf buf v = ackOf buf v' := by
  have hprefix : (received buf v).buf.take 9 = (received buf v').buf.take 9 := by
    rw [received, received, ← hstart, take_recePtk _ (by omega), take_recePtk _ (by omega)]
  have htype : (received buf v).type = (received buf v').type := by
    rw [PacketT.type, ← getD_take (show 2 < 9 by decide), hprefix, getD_take (by decide)]
    rfl
  have hindex : (received buf v).index = (received buf v').index := by
    rw [PacketT.index, ← field_take (show 3 + 4 ≤ 9 by decide), hprefix, field_take (by decide)]
    rfl
  have hassign : ∀ code, assignAck .init (received buf v) code
      = assignAck .init (received buf v') code := by
    intro code
    rw [assignAck, assignAck, htype, hindex]
  rw [ackOf, ackOf, haccepts, fillAckPacket, fillAckPacket]
  simp only [hassign]

/-- `SUCCESS` and `CRC_ERROR` are different bytes. -/
theorem append_ackOf_ne {v v' : Visit Stale} (ha : (scanner buf).accepts v = true)
    (hr : (scanner buf).accepts v' = false) (x y : List UInt8) :
    (ackOf buf v).buf ++ x ≠ (ackOf buf v').buf ++ y := by
  intro heq
  have hbuf := (List.append_inj heq ((ackOf buf v).length_buf.trans
    (ackOf buf v').length_buf.symm)).1
  have hcode : (ackOf buf v).code = (ackOf buf v').code := by rw [AckT.code, AckT.code, hbuf]
  have hsuccess := (code_ackOf v').mp (hcode ▸ (code_ackOf v).mpr ha)
  rw [hr] at hsuccess
  exact absurd hsuccess (by decide)

/-! ## The bytes of the acknowledgements -/

/-- The acknowledgements for the headers that a call looks at, as they are written. -/
def ackBytes (buf : ReadBuf) (stale : Stale) (pos : Nat) : List UInt8 :=
  ((scanner buf).run stale pos).events.flatMap fun v => (ackOf buf v).buf

theorem ackBytes_none (hs : (scanner buf).find pos = none) : ackBytes buf stale pos = [] := by
  rw [ackBytes, Scanner.run_none hs]
  rfl

theorem ackBytes_accept (hs : (scanner buf).find pos = some s)
    (hv : ((scanner buf).look stale s).verdict = some true) :
    ackBytes buf stale pos = (ackOf buf ⟨stale, s⟩).buf ++
      ackBytes buf (stale.child .next) (s + ((scanner buf).look stale s).size) := by
  rw [ackBytes, Scanner.run_accept hs hv, Run.events_emit_andThen, List.flatMap_append,
    List.flatMap_singleton]
  rfl

/-- After a rejected header, if the first of the two calls comes back. -/
theorem ackBytes_reject (hs : (scanner buf).find pos = some s)
    (hv : ((scanner buf).look stale s).verdict = some false)
    (hr : ((scanner buf).run (stale.child .resync) (s + 2)).returned = true) :
    ackBytes buf stale pos = (ackOf buf ⟨stale, s⟩).buf ++
      (ackBytes buf (stale.child .resync) (s + 2) ++
        ackBytes buf (stale.child .next) (s + ((scanner buf).look stale s).size)) := by
  have hresync : ((scanner buf).run ((scanner buf).child .resync stale)
      (s + (scanner buf).skip)).returned = true := hr
  rw [ackBytes, Scanner.run_reject hs hv, Run.andThen_of_returned hresync,
    Run.events_emit_andThen, List.flatMap_append, List.flatMap_append, List.flatMap_singleton]
  rfl

/-! ## Which calls can come back, and which leak -/

/-- The call at `pos` gets to a frame that is not whole and can be acknowledged in both ways. -/
inductive Leaks (buf : ReadBuf) : Nat → Prop
  | here {pos s : Nat} : (scanner buf).find pos = some s → ¬ Whole buf s → Completable buf s →
      CanReturn buf (s + 2) → Leaks buf pos
  | cut {pos s : Nat} : (scanner buf).find pos = some s → ¬ Whole buf s → Leaks buf (s + 2) →
      Leaks buf pos
  | accept {pos s : Nat} : (scanner buf).find pos = some s → Whole buf s →
      frameCrc buf s = some true → Leaks buf (s + frameSize buf s) → Leaks buf pos
  | resync {pos s : Nat} : (scanner buf).find pos = some s → Whole buf s →
      frameCrc buf s = some false → Leaks buf (s + 2) → CanReturn buf (s + frameSize buf s) →
      Leaks buf pos
  | next {pos s : Nat} : (scanner buf).find pos = some s → Whole buf s →
      frameCrc buf s = some false → CanReturn buf (s + 2) → Leaks buf (s + frameSize buf s) →
      Leaks buf pos

/-- Nothing leaks where every header starts a whole frame. -/
theorem not_leaks_of_whole (h : ∀ start, isHeader buf.bytes start = true → Whole buf start)
    (pos : Nat) : ¬ Leaks buf pos := by
  intro hleaks
  induction hleaks with
  | here hs hw _ _ => exact hw (h _ (Scanner.header_of_find hs))
  | cut hs hw _ _ => exact hw (h _ (Scanner.header_of_find hs))
  | accept _ _ _ _ ih => exact ih
  | resync _ _ _ _ _ ih => exact ih
  | next _ _ _ _ _ ih => exact ih

/-- With the right stale bytes a call accepts a completable frame, and is done. -/
theorem exists_complete (hs : (scanner buf).find pos = some s) (hw : ¬ Whole buf s)
    (hc : Completable buf s) :
    ∃ stale, ((scanner buf).run stale pos).returned = true ∧
      (scanner buf).accepts ⟨stale, s⟩ = true ∧ ackBytes buf stale pos = (ackOf buf ⟨stale, s⟩).buf := by
  obtain ⟨prior, hsize, hcrc⟩ := exists_accepting hw hc
  have hv : ((scanner buf).look (Stale.join prior zeroStale zeroStale) s).verdict = some true := hcrc
  refine ⟨.join prior zeroStale zeroStale, returned_of_accepting hs hsize hv,
    Scanner.accepts_of_true hv, ?_⟩
  rw [ackBytes_accept hs hv, scanner_size, join_nil, ackBytes_none (find_behind hsize),
    List.append_nil]

/-- With the right stale bytes a call rejects a frame that is not whole, and does what the first of
its calls does. -/
theorem exists_cut (hs : (scanner buf).find pos = some s) (hw : ¬ Whole buf s) :
    ∃ prior, ∀ resync, ((scanner buf).run resync (s + 2)).returned = true →
      ((scanner buf).run (Stale.join prior resync zeroStale) pos).returned = true ∧
        (scanner buf).accepts ⟨Stale.join prior resync zeroStale, s⟩ = false ∧
        ackBytes buf (Stale.join prior resync zeroStale) pos =
          (ackOf buf ⟨Stale.join prior zeroStale zeroStale, s⟩).buf ++
            ackBytes buf resync (s + 2) := by
  obtain ⟨prior, hsize, hcrc⟩ := exists_rejecting hw
  refine ⟨prior, fun resync hr => ?_⟩
  have hv : ((scanner buf).look (Stale.join prior resync zeroStale) s).verdict = some false := hcrc
  refine ⟨returned_of_rejecting hs hsize hv hr, Scanner.accepts_of_false hv, ?_⟩
  rw [ackBytes_reject hs hv hr, scanner_size, join_nil, ackBytes_none (find_behind hsize),
    List.append_nil, child_resync_join]
  rfl

section whole

variable (hs : (scanner buf).find pos = some s) (hw : Whole buf s)

include hs hw

theorem whole_accept (hv : frameCrc buf s = some true) (stale : Stale) :
    ((scanner buf).run stale pos).returned =
        ((scanner buf).run (stale.child .next) (s + frameSize buf s)).returned ∧
      ackBytes buf stale pos = (ackOf buf ⟨stale, s⟩).buf ++
        ackBytes buf (stale.child .next) (s + frameSize buf s) := by
  have hlook := look_whole hw stale
  have hverdict : ((scanner buf).look stale s).verdict = some true := by rw [hlook, hv]
  have hbytes := ackBytes_accept hs hverdict
  rw [hlook] at hbytes
  exact ⟨returned_whole_accept hs hw hv stale, hbytes⟩

theorem whole_reject (hv : frameCrc buf s = some false) (stale : Stale) :
    (((scanner buf).run stale pos).returned = true ↔
        ((scanner buf).run (stale.child .resync) (s + 2)).returned = true ∧
          ((scanner buf).run (stale.child .next) (s + frameSize buf s)).returned = true) ∧
      (((scanner buf).run (stale.child .resync) (s + 2)).returned = true →
        ackBytes buf stale pos = (ackOf buf ⟨stale, s⟩).buf ++
          (ackBytes buf (stale.child .resync) (s + 2) ++
            ackBytes buf (stale.child .next) (s + frameSize buf s))) := by
  have hlook := look_whole hw stale
  have hverdict : ((scanner buf).look stale s).verdict = some false := by rw [hlook, hv]
  have hbytes := ackBytes_reject hs hverdict
  rw [hlook] at hbytes
  exact ⟨returned_whole_reject hs hw hv stale, hbytes⟩

omit hs in
/-- A whole frame is acknowledged in one way only. -/
theorem ackOf_whole (stale stale' : Stale) : ackOf buf ⟨stale, s⟩ = ackOf buf ⟨stale', s⟩ := by
  refine ackOf_eq rfl hw.1 ?_
  rw [Scanner.accepts, Scanner.accepts, look_whole hw, look_whole hw]

end whole

/-- Two runs from `pos` come back and write different acknowledgements. -/
def Differs (buf : ReadBuf) (pos : Nat) : Prop :=
  ∃ stale stale', ((scanner buf).run stale pos).returned = true ∧
    ((scanner buf).run stale' pos).returned = true ∧
    ackBytes buf stale pos ≠ ackBytes buf stale' pos

/-- **What leaks can be told apart.** -/
theorem differs_of_leaks (h : Leaks buf pos) : Differs buf pos := by
  induction h with
  | here hs hw hc hreturn =>
    obtain ⟨stale, hreturned, haccepts, hbytes⟩ := exists_complete hs hw hc
    obtain ⟨resync, hresync⟩ := exists_returned hreturn
    obtain ⟨prior, hcut⟩ := exists_cut hs hw
    obtain ⟨hreturned', hrejects, hbytes'⟩ := hcut resync hresync
    refine ⟨stale, _, hreturned, hreturned', ?_⟩
    rw [hbytes, hbytes', ← List.append_nil (ackOf buf ⟨stale, _⟩).buf]
    exact append_ackOf_ne haccepts hrejects _ _
  | cut hs hw _ ih =>
    obtain ⟨stale, stale', hreturned, hreturned', hne⟩ := ih
    obtain ⟨prior, hcut⟩ := exists_cut hs hw
    obtain ⟨h1, _, hbytes⟩ := hcut stale hreturned
    obtain ⟨h2, _, hbytes'⟩ := hcut stale' hreturned'
    refine ⟨_, _, h1, h2, ?_⟩
    rw [hbytes, hbytes']
    exact fun heq => hne (List.append_cancel_left heq)
  | accept hs hw hv _ ih =>
    obtain ⟨stale, stale', hreturned, hreturned', hne⟩ := ih
    have h1 := whole_accept hs hw hv (.join .zero zeroStale stale)
    have h2 := whole_accept hs hw hv (.join .zero zeroStale stale')
    refine ⟨_, _, h1.1.trans hreturned, h2.1.trans hreturned', ?_⟩
    rw [h1.2, h2.2, ackOf_whole hw _ (.join .zero zeroStale stale')]
    exact fun heq => hne (List.append_cancel_left heq)
  | resync hs hw hv _ hreturn ih =>
    obtain ⟨stale, stale', hreturned, hreturned', hne⟩ := ih
    obtain ⟨next, hnext⟩ := exists_returned hreturn
    have h1 := whole_reject hs hw hv (.join .zero stale next)
    have h2 := whole_reject hs hw hv (.join .zero stale' next)
    refine ⟨_, _, h1.1.mpr ⟨hreturned, hnext⟩, h2.1.mpr ⟨hreturned', hnext⟩, ?_⟩
    rw [h1.2 hreturned, h2.2 hreturned', ackOf_whole hw _ (.join .zero stale' next)]
    exact fun heq => hne (List.append_cancel_right (List.append_cancel_left heq))
  | next hs hw hv hreturn _ ih =>
    obtain ⟨stale, stale', hreturned, hreturned', hne⟩ := ih
    obtain ⟨resync, hresync⟩ := exists_returned hreturn
    have h1 := whole_reject hs hw hv (.join .zero resync stale)
    have h2 := whole_reject hs hw hv (.join .zero resync stale')
    refine ⟨_, _, h1.1.mpr ⟨hresync, hreturned⟩, h2.1.mpr ⟨hresync, hreturned'⟩, ?_⟩
    rw [h1.2 hresync, h2.2 hresync, ackOf_whole hw _ (.join .zero resync stale')]
    exact fun heq => hne (List.append_cancel_left (List.append_cancel_left heq))

/-! ## What does not leak is the same -/

/-- A run that comes back has a verdict on the header it finds. -/
theorem verdict_ne_none (hs : (scanner buf).find pos = some s)
    (h : ((scanner buf).run stale pos).returned = true) :
    ((scanner buf).look stale s).verdict ≠ none := by
  intro hnone
  rw [Scanner.run_fault hs hnone] at h
  simp at h

/-- A frame that is not whole, behind a whole prefix, is the last one that is found. -/
theorem ackBytes_behind (h9 : s + 9 ≤ buf.bytes.length) (hw : ¬ Whole buf s) (stale : Stale) :
    ackBytes buf (stale.child .next) (s + ((scanner buf).look stale s).size) = [] :=
  ackBytes_none (find_behind (lt_sizeofPacket_of_not_whole h9 hw))

/-- Both runs accept a frame that is not whole: they are done. -/
theorem ackBytes_eq_of_accept (hs : (scanner buf).find pos = some s) (hw : ¬ Whole buf s)
    (h9 : s + 9 ≤ buf.bytes.length) (hv : ((scanner buf).look stale s).verdict = some true)
    (hv' : ((scanner buf).look stale' s).verdict = some true) :
    ackBytes buf stale pos = ackBytes buf stale' pos := by
  have hack : ackOf buf ⟨stale, s⟩ = ackOf buf ⟨stale', s⟩ :=
    ackOf_eq rfl h9 (by rw [Scanner.accepts_of_true hv, Scanner.accepts_of_true hv'])
  rw [ackBytes_accept hs hv, ackBytes_accept hs hv', hack,
    ackBytes_behind h9 hw, ackBytes_behind h9 hw]

/-- Both runs reject a frame that is not whole: they go on behind its header. -/
theorem ackBytes_eq_of_reject (hs : (scanner buf).find pos = some s) (hw : ¬ Whole buf s)
    (h9 : s + 9 ≤ buf.bytes.length) (hv : ((scanner buf).look stale s).verdict = some false)
    (hv' : ((scanner buf).look stale' s).verdict = some false)
    (hr : ((scanner buf).run (stale.child .resync) (s + 2)).returned = true)
    (hr' : ((scanner buf).run (stale'.child .resync) (s + 2)).returned = true)
    (heq : ackBytes buf (stale.child .resync) (s + 2)
      = ackBytes buf (stale'.child .resync) (s + 2)) :
    ackBytes buf stale pos = ackBytes buf stale' pos := by
  have hack : ackOf buf ⟨stale, s⟩ = ackOf buf ⟨stale', s⟩ :=
    ackOf_eq rfl h9 (by rw [Scanner.accepts_of_false hv, Scanner.accepts_of_false hv'])
  rw [ackBytes_reject hs hv hr, ackBytes_reject hs hv' hr', hack, heq,
    ackBytes_behind h9 hw, ackBytes_behind h9 hw]

/-- **What does not leak is the same in both runs.** -/
theorem ackBytes_eq (hl : ¬ Leaks buf pos) (h : ((scanner buf).run stale pos).returned = true)
    (h' : ((scanner buf).run stale' pos).returned = true) :
    ackBytes buf stale pos = ackBytes buf stale' pos := by
  induction stale, pos using (scanner buf).call_induction generalizing stale' with
  | none stale pos hs => rw [ackBytes_none hs, ackBytes_none hs]
  | fault stale pos s hs hv => exact absurd hv (verdict_ne_none hs h)
  | accept stale pos s hs hv ih =>
    by_cases hw : Whole buf s
    · rw [look_whole hw] at hv ih
      have h1 := whole_accept hs hw hv stale
      have h2 := whole_accept hs hw hv stale'
      rw [h1.2, h2.2, ackOf_whole hw stale stale']
      exact congrArg _ (ih (fun hnext => hl (.accept hs hw hv hnext)) (h1.1.symm.trans h)
        (h2.1.symm.trans h'))
    · -- the other run must not reject the frame, since it could not come back then
      have hstuck : ¬ CanReturn buf (s + 2) := fun hreturn =>
        hl (.here hs hw (completable_of_accepts hw hv) hreturn)
      have h9 : s + 9 ≤ buf.bytes.length := by
        by_contra hcut
        exact hstuck (canReturn_of_lt (by omega))
      cases hv' : ((scanner buf).look stale' s).verdict with
      | none => exact absurd hv' (verdict_ne_none hs h')
      | some ok =>
        cases ok with
        | true => exact ackBytes_eq_of_accept hs hw h9 hv hv'
        | false =>
          rw [returned_reject hs hv', Bool.and_eq_true] at h'
          exact absurd (canReturn_of_returned h'.1) hstuck
  | reject stale pos s hs hv ih1 ih2 =>
    by_cases hw : Whole buf s
    · rw [look_whole hw] at hv ih2
      have h1 := whole_reject hs hw hv stale
      have h2 := whole_reject hs hw hv stale'
      obtain ⟨hr, hn⟩ := h1.1.mp h
      obtain ⟨hr', hn'⟩ := h2.1.mp h'
      have hresync : ackBytes buf (stale.child .resync) (s + 2)
          = ackBytes buf (stale'.child .resync) (s + 2) :=
        ih1 (fun hleaks => hl (.resync hs hw hv hleaks (canReturn_of_returned hn))) hr hr'
      have hnext : ackBytes buf (stale.child .next) (s + frameSize buf s)
          = ackBytes buf (stale'.child .next) (s + frameSize buf s) :=
        ih2 (fun hleaks => hl (.next hs hw hv (canReturn_of_returned hr) hleaks)) hn hn'
      rw [h1.2 hr, h2.2 hr', ackOf_whole hw stale stale', hresync, hnext]
    · -- the other run cannot accept the frame
      rw [returned_reject hs hv, Bool.and_eq_true] at h
      have hincomplete : ¬ Completable buf s := fun hc =>
        hl (.here hs hw hc (canReturn_of_returned h.1))
      have h9 : s + 9 ≤ buf.bytes.length := by
        by_contra hcut
        exact hincomplete (Or.inl (by omega))
      cases hv' : ((scanner buf).look stale' s).verdict with
      | none => exact absurd hv' (verdict_ne_none hs h')
      | some ok =>
        cases ok with
        | true => exact absurd (completable_of_accepts hw hv') hincomplete
        | false =>
          rw [returned_reject hs hv', Bool.and_eq_true] at h'
          exact ackBytes_eq_of_reject hs hw h9 hv hv' h.1 h'.1
            (ih1 (fun hleaks => hl (.cut hs hw hleaks)) h.1 h'.1)

/-! ## The two runs -/

/-- What is written is decided by what was received: any two runs that come back write the same
bytes. -/
def AcksDetermined (buf : ReadBuf) : Prop :=
  ∀ (fd : Int) (stale stale' : Stale), (handlePacket fd stale buf 0).returned = true →
    (handlePacket fd stale' buf 0).returned = true →
    written fd (handlePacket fd stale buf 0) = written fd (handlePacket fd stale' buf 0)

theorem written_eq_ackBytes {fd : Int} (h : (handlePacket fd stale buf 0).returned = true) :
    written fd (handlePacket fd stale buf 0) = ackBytes buf stale 0 := by
  rw [written_handlePacket, acks_of_returned h, List.flatMap_map, ackBytes]

/-- **When the acknowledgements reveal nothing but what the client sent.** -/
theorem acksDetermined_iff (buf : ReadBuf) : AcksDetermined buf ↔ ¬ Leaks buf 0 := by
  constructor
  · intro h hleaks
    obtain ⟨stale, stale', hreturned, hreturned', hne⟩ := differs_of_leaks hleaks
    have hr : (handlePacket 0 stale buf 0).returned = true :=
      returned_handlePacket.trans hreturned
    have hr' : (handlePacket 0 stale' buf 0).returned = true :=
      returned_handlePacket.trans hreturned'
    have hsame := h 0 stale stale' hr hr'
    rw [written_eq_ackBytes hr, written_eq_ackBytes hr'] at hsame
    exact hne hsame
  · intro hl fd stale stale' h h'
    rw [written_eq_ackBytes h, written_eq_ackBytes h']
    exact ackBytes_eq hl (returned_handlePacket.symm.trans h) (returned_handlePacket.symm.trans h')

/-- Zeros and the bytes of an earlier packet, behind the first 11 bytes of a frame. -/
theorem not_acksDetermined :
    ¬ ∀ buf : ReadBuf, 11 ≤ buf.bytes.length → AcksDetermined buf := by
  intro h
  have hsame := h cutFrame (by decide) 3 staleFrame zeroStale (by decide +kernel)
    (by decide +kernel)
  have hne : written 3 (handlePacket 3 staleFrame cutFrame 0)
      ≠ written 3 (handlePacket 3 zeroStale cutFrame 0) := by decide +kernel
  exact hne hsame

end Easn
