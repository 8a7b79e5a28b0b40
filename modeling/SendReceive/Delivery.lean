import SendReceive.Completion
import SendReceive.Survival
import SendReceive.Timeouts

/-!
# What a transfer delivers

`Client::run` sends each packet once.  A packet that the network loses is not sent again, one that
it repeats comes again, and the status of the run says nothing of either: whatever sequence of
packets the server is to receive, there is a run in which it receives this sequence and the client
returns `EXIT_SUCCESS`.

## Main definitions

* `System.Event.served` — the number of the packet that the server receives.

## Main results

* `System.served_lt` — the server receives only packets of the transfer.
* `System.delivers_iff` — **what a transfer delivers**.
-/

namespace SendReceive

open Transition (exec)

/-- What the client does by itself receives nothing. -/
theorem ClientRun.Event.received_of_own {e : ClientRun.Event} (h : e.own) : e.received = none := by
  cases e with
  | poll outcome incoming clock =>
    cases outcome with
    | ready revents => cases h
    | _ => rfl
  | _ => rfl

namespace System

/-- The number of the packet that the server receives. -/
def Event.served : Event → Option ℕ
  | .client _ => none
  | .serve request _ _ => ClientRun.seqnum request

section Runs

variable [Platform] {n : UInt64} {server : Socket} {s s' : System}

/-- The server receives a packet that was sent. -/
theorem served_lt_of_step (hinv : Inv n server s) {e : Event} (heff : Effect n server s e s') :
    ∀ i ∈ e.served, i < n.toNat := by
  intro i hi
  cases heff with
  | client hreceived heff => cases hi
  | serve now hmem hp =>
    obtain ⟨q, hq, hqi⟩ := ClientRun.seqnum_eq_some (Option.mem_def.mp hi)
    obtain ⟨p, hp', hlt⟩ := hinv.run.packet_of_mem hmem
    obtain rfl : p = q := Except.ok.inj (hp'.symm.trans hq)
    have hle := hinv.run.next_le
    omega

/-- **The server receives only packets of the transfer.** -/
theorem served_lt (hinv : Inv n server s) {es : List Event}
    (hrun : exec (step n server) s es = some s') :
    ∀ i ∈ es.filterMap Event.served, i < n.toNat := by
  have hboth : Inv n server s' ∧ ∀ i ∈ es.filterMap Event.served, i < n.toNat := by
    refine Transition.exec_induct
      (P := fun es s => Inv n server s ∧ ∀ i ∈ es.filterMap Event.served, i < n.toNat)
      ⟨hinv, by simp⟩ ?_ es s' hrun
    rintro es m e m' - ⟨hm, hes⟩ hstep
    refine ⟨hm.step (step_effect hstep), fun i hi => ?_⟩
    rw [List.filterMap_append, List.mem_append] at hi
    rcases hi with hi | hi
    · exact hes i hi
    · obtain ⟨e', he', hserved⟩ := List.mem_filterMap.mp hi
      obtain rfl := List.mem_singleton.mp he'
      exact served_lt_of_step hm (step_effect hstep) i hserved
  exact hboth.2

/-- What the client does by itself it does in the system. -/
theorem exec_own {es : List ClientRun.Event} : ∀ {r r' : ClientRun},
    exec (ClientRun.step n) r es = some r' → (∀ e ∈ es, e.own) → ∀ replies,
    exec (step n server) ⟨r, replies⟩ (es.map .client) = some ⟨r', replies⟩ := by
  induction es with
  | nil =>
    intro r r' hrun _ replies
    obtain rfl := Option.some.inj hrun
    rfl
  | cons e es ih =>
    intro r r' hrun howns replies
    obtain ⟨hown, howns⟩ := List.forall_mem_cons.mp howns
    rw [Transition.exec_cons, Option.bind_eq_some_iff] at hrun
    obtain ⟨m, hstep, hrun⟩ := hrun
    have hreceived : ∀ d ∈ e.received, d ∈ replies := by
      rw [ClientRun.Event.received_of_own hown]
      intro d hd
      cases hd
    rw [List.map_cons, Transition.exec_cons, step, if_pos hreceived, hstep]
    exact ih hrun howns replies

variable {addr : Address} {sock : Socket} {t : WhiskerTree} {track : Bool}

/-- The server can be made to receive any packets that were sent. -/
theorem exists_exec_served (l : List ℕ) : ∀ {es : List Event} {s : System},
    exec (step n server) (start addr sock t track) es = some s →
    (∀ i ∈ l, i < s.run.sent.length) →
    ∃ es' s', exec (step n server) s es' = some s' ∧ s'.run = s.run ∧
      es'.filterMap Event.served = l := by
  induction l with
  | nil => exact fun {_ s} _ _ => ⟨[], s, rfl, rfl, rfl⟩
  | cons i l ih =>
    intro es s hrun hl
    obtain ⟨hi, hl⟩ := List.forall_mem_cons.mp hl
    have hinv := Inv.exec hrun
    rw [hinv.run.length_sent] at hi
    obtain ⟨request, hmem, p, hp, hpi⟩ := hinv.run.exists_sent hi
    have hserved : (Event.serve request 0 0).served = some i := by
      show ClientRun.seqnum request = some i
      rw [ClientRun.seqnum, hp, ← hpi]
      rfl
    obtain ⟨s', hstep⟩ := exists_serve (ClientRun.sent_start addr sock t track) hrun request hmem 0 0
    have hsame : s'.run = s.run := by
      cases step_effect hstep with
      | serve now hmem hp => rfl
    obtain ⟨es', s'', hrun', hrun'', hes'⟩ := ih (Transition.exec_snoc.mpr ⟨s, hrun, hstep⟩) (by
      rw [hsame]
      exact hl)
    refine ⟨.serve request 0 0 :: es', s'', ?_, hrun''.trans hsame, ?_⟩
    · rw [Transition.exec_cons, hstep]
      exact hrun'
    · rw [List.filterMap_cons_some hserved, hes']

/-- **What a transfer delivers.**  With rules that open the window, and a number of packets that
leaves room for it, go on from a state of a run in which the client has neither stopped nor
returned. A sequence of numbers is what the server receives in some continuation in which the client
returns `EXIT_SUCCESS`, each packet having been sent once, if and only if its members are packets of
the transfer: in any order, any number of times, or not at all. -/
theorem delivers_iff {es : List Event}
    (hrun : exec (step n server) (start addr sock t track) es = some s)
    (hrules : ∀ p ∈ t.leaves, p.2.InRange ∧ 1 ≤ p.2.windowIncrement.toInt)
    (hn : n.toNat ≤ 2 ^ 64 - 1000001) (hrunning : s.Running)
    (hreturned : ∀ v, s.run.pc ≠ .returned v) (l : List ℕ) :
    (∃ es' s', exec (step n server) s es' = some s' ∧ s'.run.pc = .returned exitSuccess ∧
      s'.run.sent.map ClientRun.seqnum = (List.range n.toNat).map some ∧
      es'.filterMap Event.served = l) ↔ ∀ i ∈ l, i < n.toNat := by
  have hinv := Inv.exec hrun
  constructor
  · rintro ⟨es', s', hrun', -, -, rfl⟩
    exact served_lt hinv hrun'
  · intro hl
    -- the client goes on alone, and its packets come after it has returned
    obtain ⟨own, r, howns, hown, hpc, hsent⟩ := ClientRun.exists_own_exec hrules hn _ _ _
      (exec_clientEvents hrun) (Nat.le_add_left _ _) hrunning hreturned
    have hmiddle : exec (step n server) s (own.map .client) = some ⟨r, s.replies⟩ :=
      exec_own hown howns s.replies
    have hall := Transition.exec_append_eq_some.mpr ⟨s, hrun, hmiddle⟩
    obtain ⟨es', s', hserves, hsame, hserved⟩ := exists_exec_served l hall (by
      rw [hsent]
      exact hl)
    refine ⟨own.map .client ++ es', s', ?_, hsame ▸ hpc, ?_, ?_⟩
    · exact Transition.exec_append_eq_some.mpr ⟨_, hmiddle, hserves⟩
    · have hrange := (Inv.exec hall).run
      rw [hsame, hrange.sent, ← hrange.length_sent, hsent]
    · have hnone : (own.map Event.client).filterMap Event.served = [] := by
        rw [List.filterMap_map]
        exact List.filterMap_eq_nil_iff.mpr fun _ _ => rfl
      rw [List.filterMap_append, hnone, hserved, List.nil_append]

end Runs

/-- The default table and three packets: the second never comes, and the first comes last and
twice. -/
theorem delivers_iff_of_three : letI := gcc48
    ∃ (es : List Event) (s : System),
      exec (step 3 ⟨⟨1, 9⟩⟩) (start ⟨1, 9⟩ ⟨⟨2, 8⟩⟩ .init true) es = some s ∧
      s.run.pc = .returned exitSuccess ∧ es.filterMap Event.served = [2, 0, 0] := by
  let _ := gcc48
  have hrules : ∀ p ∈ WhiskerTree.init.leaves, p.2.InRange ∧ 1 ≤ p.2.windowIncrement.toInt := by
    intro p hp
    rw [List.mem_singleton.mp hp]
    exact ⟨by decide +kernel, by decide⟩
  have hpc : (start ⟨1, 9⟩ ⟨⟨2, 8⟩⟩ .init true).run.pc = .outer := by
    decide +kernel
  have hnil : exec (step 3 ⟨⟨1, 9⟩⟩) (start ⟨1, 9⟩ ⟨⟨2, 8⟩⟩ .init true) []
      = some (start ⟨1, 9⟩ ⟨⟨2, 8⟩⟩ .init true) :=
    Transition.exec_nil _
  obtain ⟨es, s, hrun, hend, -, hserved⟩ := (delivers_iff hnil hrules (by decide)
    (fun why => by simp [hpc]) (fun v => by simp [hpc]) [2, 0, 0]).mpr (by decide)
  exact ⟨es, s, hrun, hend, hserved⟩

end System

end SendReceive
