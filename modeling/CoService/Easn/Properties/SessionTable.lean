import CoService.Easn.Properties.Pool
import Mathlib.Data.Fintype.Card

/-!
# Does the session table track the live connections?

`new_connection` enters every session into the table of `client_manager`, and nothing in the
server calls `remove_connection`. So the table tracks the connections only until the first
session is over: its entry stays, with a descriptor that is closed and may go to another client.

`tableTracks_iff` is proved in two parts: `TableInv` relates the table to the coroutines in every
reachable state, and `tracked_acts` says that a step keeps all entries tracked exactly if it leaves
no session loop.
-/

namespace Easn

open Infra

namespace Server

/-- Every entry of the table belongs to a coroutine that serves it. -/
structure TableTracks (s : Server) : Prop where
  tracked : ∀ sid p, s.manager.getConnection sid = some p → ∃ i acceptTimestamp conn,
    s.pc i = .polling conn.socketFd acceptTimestamp p ∧ s.pool.fd i = conn.socketFd ∧
      s.manager.heap p = some conn ∧ conn.sid = sid
  size : s.manager.connections.size ≤ maxAcceptCount
  apart : ∀ sid sid' p p' conn conn', s.manager.getConnection sid = some p →
    s.manager.getConnection sid' = some p' → s.manager.heap p = some conn →
    s.manager.heap p' = some conn' → conn.socketFd = conn'.socketFd → sid = sid'
  live : ∀ sid p conn, s.manager.getConnection sid = some p → s.manager.heap p = some conn →
    ∃ c, s.owner p = some c ∧ s.pool.openFds conn.socketFd = some c

/-- Every entry of the table is the session of some coroutine. -/
def Tracked (s : Server) : Prop :=
  ∀ sid p, s.manager.getConnection sid = some p →
    ∃ i fd acceptTimestamp, s.pc i = .polling fd acceptTimestamp p

/-- How the table and the coroutines agree. -/
structure TableInv (s : Server) : Prop where
  keys : ∀ sid p, s.manager.getConnection sid = some p → sid ∈ s.sids
  cells : ∀ sid p, s.manager.getConnection sid = some p →
    ∃ conn, s.manager.heap p = some conn ∧ conn.sid = sid
  polling : ∀ i fd acceptTimestamp p, s.pc i = .polling fd acceptTimestamp p →
    ∃ conn, s.manager.heap p = some conn ∧ conn.socketFd = fd ∧
      s.manager.getConnection conn.sid = some p ∧ s.owner p = some (s.pool.served i)
  apart : ∀ i j fd fd' ts ts' p, s.pc i = .polling fd ts p → s.pc j = .polling fd' ts' p → i = j

namespace TableInv

variable {s s' : Server}

theorem init : Server.init.TableInv where
  keys sid p h := by simp [Server.init] at h
  cells sid p h := by simp [Server.init] at h
  polling i fd ts p h := by simp [Server.init] at h
  apart i j fd fd' ts ts' p h := by simp [Server.init] at h

/-- A change that concerns neither the table nor a session. -/
theorem congr (h : s.TableInv) (hm : s'.manager = s.manager) (hs : s'.sids = s.sids)
    (ho : s'.owner = s.owner)
    (hpc : ∀ i fd ts p, s'.pc i = .polling fd ts p →
      s.pc i = .polling fd ts p ∧ s'.pool.served i = s.pool.served i) : s'.TableInv where
  keys := by
    rw [hm, hs]
    exact h.keys
  cells := by
    rw [hm]
    exact h.cells
  polling i fd ts p hi := by
    obtain ⟨hi, hserved⟩ := hpc i fd ts p hi
    rw [hm, ho, hserved]
    exact h.polling i fd ts p hi
  apart i j fd fd' ts ts' p hi hj :=
    h.apart i j fd fd' ts ts' p (hpc i fd ts p hi).1 (hpc j fd' ts' p hj).1

/-- The coroutines do not use a cell that is free. -/
theorem ne_of_free (h : s.TableInv) {cell : Ptr} (hcell : s.manager.heap cell = none)
    {i : TaskId} {fd : Int} {ts : Int32} {p : Ptr} (hi : s.pc i = .polling fd ts p) :
    p ≠ cell := by
  rintro rfl
  obtain ⟨conn, hconn, _⟩ := h.polling i fd ts p hi
  simp [hcell] at hconn

/-- The table after `new_connection` with a new clock reading. -/
theorem getConnection_newSession (h : s.TableInv) {i : TaskId} {input : TaskInput}
    (hfresh : timestamp input.tv ∉ s.sids) (sid : UInt64) :
    (s.newSession i input).manager.getConnection sid =
      if sid = timestamp input.tv then some input.cell else s.manager.getConnection sid := by
  have hnone : s.manager.getConnection (timestamp input.tv) = none := by
    by_contra hne
    obtain ⟨p, hp⟩ := Option.ne_none_iff_exists'.mp hne
    exact hfresh (h.keys _ p hp)
  rw [newSession, ClientManager.getConnection_newConnection]
  by_cases hsid : sid = timestamp input.tv
  · subst hsid
    rw [if_pos ⟨rfl, hnone⟩, if_pos rfl]
  · rw [if_neg (fun hc => hsid hc.1), if_neg hsid]

theorem newSession (h : s.TableInv) {i : TaskId} {input : TaskInput}
    (hcell : s.manager.heap input.cell = none) (hfresh : timestamp input.tv ∉ s.sids) :
    (s.newSession i input).TableInv where
  keys sid p hp := by
    rw [h.getConnection_newSession hfresh] at hp
    show sid ∈ s.sids ++ [timestamp input.tv]
    split at hp
    · next hsid => simp [hsid]
    · exact List.mem_append_left _ (h.keys sid p hp)
  cells sid p hp := by
    rw [h.getConnection_newSession hfresh] at hp
    split at hp
    · next hsid =>
      obtain rfl := Option.some.inj hp
      exact ⟨_, ClientManager.heap_newConnection_self, hsid.symm⟩
    · obtain ⟨conn, hconn, hsid⟩ := h.cells sid p hp
      have hne : p ≠ input.cell := by
        rintro rfl
        simp [hcell] at hconn
      exact ⟨conn, (ClientManager.heap_newConnection_of_ne hne).trans hconn, hsid⟩
  polling j fd ts p hj := by
    have hne := h.ne_of_free hcell hj
    obtain ⟨conn, hconn, hfd, hget, howner⟩ := h.polling j fd ts p hj
    refine ⟨conn, (ClientManager.heap_newConnection_of_ne hne).trans hconn, hfd, ?_, ?_⟩
    · rw [h.getConnection_newSession hfresh, if_neg, hget]
      intro heq
      exact hfresh (heq ▸ h.keys _ p hget)
    · exact (Function.update_of_ne hne _ _).trans howner
  apart := h.apart

/-- A coroutine that waits in the session it has just created. -/
theorem begin (h : s.TableInv) {i : TaskId} {input : TaskInput} {r : Caller} {ts : Int32}
    (hcell : s.manager.heap input.cell = none) (hfresh : timestamp input.tv ∉ s.sids) :
    ((s.newSession i input).coPoll i r (s.pool.fd i) ts input.cell).TableInv := by
  have hnew := h.newSession (i := i) hcell hfresh
  refine ⟨hnew.keys, hnew.cells, ?_, ?_⟩
  · intro j fd ts' p hj
    rcases pc_coPoll_cases hj with ⟨rfl, rfl, rfl, rfl⟩ | ⟨_, hj⟩
    · refine ⟨_, ClientManager.heap_newConnection_self, rfl, ?_, Function.update_self ..⟩
      exact (h.getConnection_newSession hfresh _).trans (if_pos rfl)
    · exact hnew.polling j fd ts' p hj
  · exact apart_coPoll hnew.apart fun j fd ts' p hj => h.ne_of_free hcell hj

/-- A session whose flag changes. -/
theorem store (h : s.TableInv) {session : Ptr} {conn conn' : EasnConnT}
    (hheap : s.manager.heap session = some conn) (hsid : conn'.sid = conn.sid)
    (hfd : conn'.socketFd = conn.socketFd) :
    TableInv { s with manager := s.manager.store session (some conn') } where
  keys := h.keys
  cells sid p hp := by
    obtain ⟨conn₀, hconn₀, hsid₀⟩ := h.cells sid p hp
    by_cases hps : p = session
    · subst hps
      obtain rfl : conn = conn₀ := Option.some.inj (hheap.symm.trans hconn₀)
      exact ⟨conn', ClientManager.heap_store_self, hsid.trans hsid₀⟩
    · exact ⟨conn₀, (ClientManager.heap_store_of_ne hps).trans hconn₀, hsid₀⟩
  polling i fd ts p hi := by
    obtain ⟨conn₀, hconn₀, hfd₀, hget, howner⟩ := h.polling i fd ts p hi
    by_cases hps : p = session
    · subst hps
      obtain rfl : conn = conn₀ := Option.some.inj (hheap.symm.trans hconn₀)
      exact ⟨conn', ClientManager.heap_store_self, hfd.trans hfd₀, by rw [hsid]; exact hget, howner⟩
    · exact ⟨conn₀, (ClientManager.heap_store_of_ne hps).trans hconn₀, hfd₀, hget, howner⟩
  apart := h.apart

/-- A coroutine that leaves its session loop does not touch the table. -/
theorem leaveLoop (h : s.TableInv) {pool : TaskPool} (hserved : pool.served = s.pool.served)
    (i : TaskId) (r : Caller) : ({ s with pool := pool }.leaveLoop i r).TableInv := by
  refine h.congr rfl rfl rfl ?_
  intro j fd ts p hj
  exact ⟨(pc_leaveLoop hj).2, congrFun hserved j⟩

/-- **Every action keeps the table and the coroutines in agreement**, as long as the clock readings
differ. -/
theorem acts (h : s.TableInv) (hp : s.PoolInv) {left : Bool} (ha : Acts s left s')
    (hn : s'.sids.Nodup) : s'.TableInv := by
  cases ha with
  | pass control => exact h.congr rfl rfl rfl fun _ _ _ _ hi => ⟨hi, rfl⟩
  | refuse connfd hopen hnone =>
    refine h.congr rfl rfl rfl fun _ _ _ _ hi => ⟨hi, ?_⟩
    rw [TaskPool.acceptFd_nil hnone]
  | give connfd i rest hpos hopen htask =>
    refine h.congr rfl rfl rfl fun j fd ts p hj => ⟨hj, ?_⟩
    have hji := hp.ne_of_idle (htask ▸ List.mem_cons_self) hj
    rw [TaskPool.acceptFd_cons htask]
    exact Function.update_of_ne hji _ _
  | idle i r hpc =>
    refine h.congr rfl rfl rfl fun j fd ts p hj => ⟨?_, rfl⟩
    rwa [pc_coYield hpc] at hj
  | begin i r input hpc hfd hcell hwait =>
    exact h.begin hcell (List.nodup_append_comm.mp hn).notMem
  | beginLeave i r input hpc hfd hcell =>
    exact (h.newSession hcell (List.nodup_append_comm.mp hn).notMem).leaveLoop
      (TaskPool.served_closeFd ..) i r
  | again i r fd acceptTimestamp session conn input hpc hheap hread hwait =>
    obtain ⟨hsid, hsocket⟩ := afterPoll_frame fd conn input.stale input.read
    refine (h.store hheap hsid hsocket).congr rfl rfl rfl fun j fd ts p hj => ⟨?_, rfl⟩
    rwa [pc_coPoll (by exact hpc)] at hj
  | leave i r fd acceptTimestamp session conn input hpc hheap =>
    obtain ⟨hsid, hsocket⟩ := afterPoll_frame fd conn input.stale input.read
    exact (h.store hheap hsid hsocket).leaveLoop (TaskPool.served_closeFd ..) i r

/-! ## Tracked entries -/

/-- The entry of a cell that is in use. -/
theorem ne_cell (h : s.TableInv) {cell : Ptr} (hcell : s.manager.heap cell = none) {sid : UInt64}
    {p : Ptr} (hp : s.manager.getConnection sid = some p) : p ≠ cell := by
  rintro rfl
  obtain ⟨conn, hconn, _⟩ := h.cells sid p hp
  simp [hcell] at hconn

/-- A session that begins is tracked. -/
theorem tracked_begin (h : s.TableInv) {i : TaskId} {input : TaskInput} {r : Caller} {ts : Int32}
    (hpc : s.pc i = .yielded) (hcell : s.manager.heap input.cell = none)
    (hfresh : timestamp input.tv ∉ s.sids) :
    ((s.newSession i input).coPoll i r (s.pool.fd i) ts input.cell).Tracked ↔ s.Tracked := by
  have hget := h.getConnection_newSession (i := i) hfresh
  have hpc' : ∀ j, j ≠ i →
      ((s.newSession i input).coPoll i r (s.pool.fd i) ts input.cell).pc j = s.pc j :=
    fun j hji => Function.update_of_ne hji ..
  have hself : ((s.newSession i input).coPoll i r (s.pool.fd i) ts input.cell).pc i
      = .polling (s.pool.fd i) ts input.cell := Function.update_self ..
  constructor
  · intro ht sid p hp
    have hsid : sid ≠ timestamp input.tv := fun heq => hfresh (heq ▸ h.keys sid p hp)
    obtain ⟨j, fd, ts', hj⟩ := ht sid p ((hget sid).trans ((if_neg hsid).trans hp))
    have hji : j ≠ i := by
      rintro rfl
      rw [hself, Pc.polling.injEq] at hj
      exact h.ne_cell hcell hp hj.2.2.symm
    exact ⟨j, fd, ts', (hpc' j hji).symm.trans hj⟩
  · intro ht sid p hp
    have hp' := (hget sid).symm.trans hp
    split at hp'
    · obtain rfl := Option.some.inj hp'
      exact ⟨i, _, _, hself⟩
    · obtain ⟨j, fd, ts', hj⟩ := ht sid p hp'
      have hji : j ≠ i := by
        rintro rfl
        simp [hpc] at hj
      exact ⟨j, fd, ts', (hpc' j hji).trans hj⟩

/-- **A step keeps all entries tracked exactly if it leaves no session loop.** -/
theorem tracked_acts (h : s.TableInv) {left : Bool} (ha : Acts s left s') (hn : s'.sids.Nodup) :
    s'.Tracked ↔ s.Tracked ∧ left = false := by
  cases ha with
  | pass control => exact (and_iff_left rfl).symm
  | refuse connfd hopen hnone => exact (and_iff_left rfl).symm
  | give connfd i rest hpos hopen htask => exact (and_iff_left rfl).symm
  | idle i r hpc =>
    rw [and_iff_left rfl, Tracked, pc_coYield hpc]
    rfl
  | begin i r input hpc hfd hcell hwait =>
    rw [and_iff_left rfl]
    exact h.tracked_begin hpc hcell (List.nodup_append_comm.mp hn).notMem
  | beginLeave i r input hpc hfd hcell =>
    refine iff_of_false ?_ (by simp)
    intro ht
    -- the session that is over at once has an entry, and no coroutine has its cell
    have hget := h.getConnection_newSession (i := i)
      (List.nodup_append_comm.mp hn).notMem (timestamp input.tv)
    rw [if_pos rfl] at hget
    obtain ⟨j, fd, ts, hj⟩ := ht _ _ hget
    exact h.ne_of_free hcell (pc_leaveLoop hj).2 rfl
  | again i r fd acceptTimestamp session conn input hpc hheap hread hwait =>
    rw [and_iff_left rfl, Tracked, pc_coPoll (by exact hpc)]
    rfl
  | leave i r fd acceptTimestamp session conn input hpc hheap =>
    refine iff_of_false ?_ (by simp)
    intro ht
    -- its entry stays, and no other coroutine has its cell
    obtain ⟨conn₀, _, _, hget, _⟩ := h.polling i fd acceptTimestamp session hpc
    obtain ⟨j, fd', ts, hj⟩ := ht _ _ hget
    obtain ⟨hji, hj⟩ := pc_leaveLoop hj
    exact hji (h.apart j i fd' fd ts acceptTimestamp session hj hpc)

end TableInv

/-- The clock readings of a run only grow in number. -/
theorem Acts.sids_prefix {s s' : Server} {left : Bool} (ha : Acts s left s') :
    s.sids <+: s'.sids := by
  cases ha with
  | begin i r input hpc hfd hcell hwait => exact List.prefix_append ..
  | beginLeave i r input hpc hfd hcell => exact List.prefix_append ..
  | _ => exact List.prefix_refl _

/-! ## The table -/

/-- Different entries belong to different coroutines, so there are at most `MAX_ACCEPT_COUNT`. -/
theorem TableInv.size_le {s : Server} (h : s.TableInv) (ht : s.Tracked) :
    s.manager.connections.size ≤ maxAcceptCount := by
  have hserve : ∀ sid, sid ∈ s.manager.connections → ∃ i fd ts p,
      s.pc i = .polling fd ts p ∧ s.manager.getConnection sid = some p := by
    intro sid hmem
    obtain ⟨p, hp⟩ := Option.isSome_iff_exists.mp (Std.TreeMap.isSome_getElem?_iff_mem.mpr hmem)
    obtain ⟨i, fd, ts, hi⟩ := ht sid p hp
    exact ⟨i, fd, ts, p, hi, hp⟩
  have hne : Nonempty TaskId := ⟨⟨0, by decide⟩⟩
  choose! task htask using hserve
  have hinj : ∀ sid ∈ s.manager.connections.keys, ∀ sid' ∈ s.manager.connections.keys,
      task sid = task sid' → sid = sid' := by
    intro sid hsid sid' hsid' heq
    obtain ⟨fd, ts, p, hpc, hget⟩ := htask sid (Std.TreeMap.mem_keys.mp hsid)
    obtain ⟨fd', ts', p', hpc', hget'⟩ := htask sid' (Std.TreeMap.mem_keys.mp hsid')
    obtain rfl : p = p' := by
      rw [heq, hpc', Pc.polling.injEq] at hpc
      exact hpc.2.2.symm
    obtain ⟨conn, hconn, hs⟩ := h.cells sid p hget
    obtain ⟨conn', hconn', hs'⟩ := h.cells sid' p hget'
    obtain rfl := Option.some.inj (hconn.symm.trans hconn')
    exact hs.symm.trans hs'
  have hnodup := (Std.TreeMap.nodup_keys (t := s.manager.connections)).map_on hinj
  have hcard := hnodup.length_le_card
  rw [List.length_map, Std.TreeMap.length_keys, Fintype.card_fin] at hcard
  exact hcard

/-- Which coroutine serves the session of an entry. -/
theorem TableInv.tracks {s : Server} (h : s.TableInv) (hp : s.PoolInv) (ht : s.Tracked) :
    s.TableTracks := by
  have htracked : ∀ sid p, s.manager.getConnection sid = some p → ∃ i acceptTimestamp conn,
      s.pc i = .polling conn.socketFd acceptTimestamp p ∧ s.pool.fd i = conn.socketFd ∧
        s.manager.heap p = some conn ∧ conn.sid = sid := by
    intro sid p hget
    obtain ⟨i, fd, ts, hi⟩ := ht sid p hget
    obtain ⟨conn, hconn, rfl, _⟩ := h.polling i fd ts p hi
    obtain ⟨conn', hconn', hsid⟩ := h.cells sid p hget
    obtain rfl : conn = conn' := Option.some.inj (hconn.symm.trans hconn')
    exact ⟨i, ts, conn, hi, (hp.polling i _ ts p hi).1, hconn, hsid⟩
  refine ⟨htracked, h.size_le ht, ?_, ?_⟩
  · intro sid sid' p p' conn conn' hget hget' hconn hconn' hfd
    obtain ⟨i, ts, conn₀, hi, hfi, hconn₀, hsid⟩ := htracked sid p hget
    obtain ⟨j, ts', conn₁, hj, hfj, hconn₁, hsid'⟩ := htracked sid' p' hget'
    obtain rfl := Option.some.inj (hconn.symm.trans hconn₀)
    obtain rfl := Option.some.inj (hconn'.symm.trans hconn₁)
    obtain rfl : i = j := hp.pool.eq_of_fd (hfi ▸ (hp.polling i _ ts p hi).2)
      (hfi.trans (hfd.trans hfj.symm))
    obtain rfl : p = p' := by
      rw [hi, Pc.polling.injEq] at hj
      exact hj.2.2
    obtain rfl := Option.some.inj (hconn.symm.trans hconn')
    exact hsid.symm.trans hsid'
  · intro sid p conn hget hconn
    obtain ⟨i, ts, conn₀, hi, hfi, hconn₀, _⟩ := htracked sid p hget
    obtain rfl := Option.some.inj (hconn.symm.trans hconn₀)
    obtain ⟨_, _, _, _, howner⟩ := h.polling i _ ts p hi
    have hbusy := (hp.pool.busy i (hfi ▸ (hp.polling i _ ts p hi).2)).1
    rw [hfi] at hbusy
    exact ⟨_, howner, hbusy⟩

/-- In every reachable state the table agrees with the coroutines, and all entries are tracked
exactly if no step left a session loop. -/
theorem tableInv_run {is : List Input} {s : Server} (h : machine.run is = some s)
    (hn : s.sids.Nodup) :
    s.TableInv ∧ (s.Tracked ↔ machine.Along (fun s i => s.leaves i = false) is) := by
  refine Machine.invariant (M := machine) (P := fun is s => s.sids.Nodup → s.TableInv ∧
    (s.Tracked ↔ machine.Along (fun s i => s.leaves i = false) is)) ?_ ?_ h hn
  · intro _
    refine ⟨TableInv.init, iff_of_true ?_ ?_⟩
    · intro sid p hp
      simp [machine, Server.init] at hp
    · intro before i hb
      simp at hb
  · intro is s i s' hrun ih hs hn'
    have ha := step_acts hs
    obtain ⟨hinv, htracked⟩ := ih (hn'.sublist ha.sids_prefix.sublist)
    refine ⟨hinv.acts (PoolInv.run hrun) ha hn', ?_⟩
    rw [hinv.tracked_acts ha hn', htracked, Machine.along_append_singleton]
    refine and_congr_right fun _ => ⟨?_, fun hall => hall s s' hrun hs⟩
    intro hstay s₀ s₁ hrun₀ _
    obtain rfl := Option.some.inj (hrun.symm.trans hrun₀)
    exact hstay

/-- **When the table tracks the live connections**: in a state that the server reaches with
different clock readings exactly if no session loop has been left on the way. -/
theorem tableTracks_iff (is : List Input) (s : Server) (h : machine.run is = some s)
    (hn : s.sids.Nodup) :
    s.TableTracks ↔ machine.Along (fun s i => s.leaves i = false) is := by
  obtain ⟨hinv, htracked⟩ := tableInv_run h hn
  rw [← htracked]
  constructor
  · intro ht sid p hp
    obtain ⟨i, ts, conn, hi, _⟩ := ht.tracked sid p hp
    exact ⟨i, _, ts, hi⟩
  · exact hinv.tracks (PoolInv.run h)

/-- The client of `oneClient` has hung up, which left a session loop. -/
theorem tableTracks_iff_oneClient :
    ((machine.run oneClient).get oneClient_isSome).TableTracks ↔
      machine.Along (fun s i => s.leaves i = false) oneClient :=
  tableTracks_iff oneClient _ (Option.some_get _).symm (by decide +kernel)

/-- When the client of `oneClient` has hung up, its entry is still in the table and no coroutine
serves it. -/
theorem not_tableTracks :
    ¬ ∀ (is : List Input) (s : Server), machine.run is = some s → s.sids.Nodup →
      s.TableTracks := by
  intro h
  have ht := h oneClient _ (Option.some_get oneClient_isSome).symm (by decide +kernel)
  have hget : ((machine.run oneClient).get oneClient_isSome).manager.getConnection 1600000000000
      = some 1 := by decide +kernel
  have hidle : ∀ i, ((machine.run oneClient).get oneClient_isSome).pc i = .yielded := by
    decide +kernel
  obtain ⟨i, ts, conn, hi, _⟩ := ht.tracked _ _ hget
  rw [hidle i] at hi
  exact absurd hi (by simp)

end Server

end Easn
