import MBroker.Broker.Guarded
import MBroker.Server.Dispatch

/-!
# The box table of the whole server

The handlers of all kinds run beside each other and beside `main`. Only the section of
`handle_tfs_create_box` under `boxes_lock` and the removal change what the invariant of the
table speaks of; the counters of a box, its lock and its file are not in it.

Results:
1. `server_table`: the invariant holds whatever the clients ask for, as long as it fits, and in
   whatever order the workers get it, up to a removal that fails half way; its worker keeps
   `boxes_lock`.
-/

namespace MBroker

open FirstFit Transition

namespace Server

variable {s t : Server}

/-- The handlers of the server are a broker of their own. -/
theorem broker_reached (hrun : Reaches step anyStep s t) :
    Reaches Broker.step anyStep s.broker t.broker := by
  show Reaches Broker.step _ (Server.broker _) (Server.broker _)
  refine hrun.project fun t e u _ hs => ?_
  cases moves_of_step hs with
  | dispatched _ hb => exact .inr ⟨_, trivial, hb⟩
  | worker _ hb => exact .inr ⟨_, trivial, hb⟩
  | _ => exact .inl rfl

/-- Requests of every kind that fit, from any clients, spread over any workers: the table of
boxes is in order, unless a removal failed; then its worker is on the way to `close_server` and
has `boxes_lock`, so that nobody creates or removes a box over that table. -/
theorem server_table {maxSessions : Nat} {malloced : Bool} {clients : Nat → Client} {m : Fs.Malloc}
    {fds : Nat → Bool} (hstart : start maxSessions malloced clients m fds = some s)
    (hrun : Reaches step FittingClients s t) : Broker.TableInvariant t.broker ∨
      ∃ w, t.broker.boxesLock = some w ∧
      (t.broker.pcs w = .ret (-1) ∨ t.broker.pcs w = .closing) := by
  obtain ⟨queue, tfs, -, -, rfl⟩ := start_eq_some hstart
  have hbegin : Broker.Guarded { Broker.start maxSessions clients m fds with tfs := tfs } :=
    ⟨fun _ => False.elim, .inl ((Broker.TableInvariant.of_start maxSessions clients m fds).of_same
      ⟨rfl, rfl, fun _ => rfl⟩)⟩
  exact (hbegin.reached (broker_reached (hrun.mono fun _ _ _ => trivial))).table

theorem server_table_created :
    ∃ t : Server, t.broker.numBoxes = 1 ∧ Broker.TableInvariant t.broker := by
  have hrun : (exec step (fresh 1) (writeCreate :: servedBy 0 ++ [.worker 0 (.malloced true)])).any
      fun t => t.broker.numBoxes = 1 ∧ t.broker.boxesLock = none := by decide +kernel
  obtain ⟨t, hrun, ht⟩ := (Option.any_eq_true _ _).mp hrun
  obtain ⟨hnum, hfree⟩ := of_decide_eq_true ht
  refine ⟨t, hnum,
    (server_table (start_fresh 0) (.of_exec hrun (by decide +kernel))).resolve_right ?_⟩
  rintro ⟨w, hlock, -⟩
  cases hfree.symm.trans hlock

end Server

end MBroker
