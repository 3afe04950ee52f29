import MeshcoreBbs.Dispatcher

/-!
# What a reply adds to the queue

`_enqueue_reply` in one go: nothing when the reply is refused, else one row for each packet
(`run_enqueueReply`).
-/

namespace Bbs

open Coroutine

namespace World

/-- Insert the rows in turn. -/
def insertRows (w : World) (origin : Origin) (rows : List OutboundRow) : World :=
  rows.foldl (fun w row => w.insertRow origin row) w

/-- The rows of a reply at the current time. -/
def rowsOf (w : World) (reply : Reply) : List OutboundRow :=
  (Format.splitPackets reply.text Format.defaultPacketBytes).map (reply.row w.now)

/-- The reply is turned away. -/
def refuses (w : World) (reply : Reply) : Bool :=
  reply.refused w.cfg.limits w.queue.outboundPendingDepth

def enqueued (w : World) (origin : Origin) (reply : Reply) : World :=
  if w.refuses reply then w else w.insertRows origin (w.rowsOf reply)

/-- What every insertion keeps. -/
theorem insertRows_induction {P : World → Prop} {w : World} {origin : Origin}
    {rows : List OutboundRow} (h : ∀ w row, row ∈ rows → P w → P (w.insertRow origin row))
    (hw : P w) : P (w.insertRows origin rows) := by
  induction rows generalizing w with
  | nil => exact hw
  | cons row rows ih =>
    exact ih (fun w r hr => h w r (List.mem_cons_of_mem row hr)) (h w row List.mem_cons_self hw)

theorem enqueued_induction {P : World → Prop} {w : World} {origin : Origin} {reply : Reply}
    (h : ∀ w' packet, packet ∈ Format.splitPackets reply.text Format.defaultPacketBytes →
      P w' → P (w'.insertRow origin (reply.row w.now packet))) (hw : P w) :
    P (w.enqueued origin reply) := by
  unfold enqueued
  split
  · exact hw
  · refine insertRows_induction (fun w' row hrow hP => ?_) hw
    obtain ⟨packet, hpacket, rfl⟩ := List.mem_map.mp hrow
    exact h w' packet hpacket hP

/-! ## The rows -/

/-- The rows of the outbound queue in the order of their ids. -/
def outboundRows (w : World) : List OutboundRow := w.queue.outbound.rows.map Prod.snd

/-- An operation adds the row that it inserts, and no other. -/
theorem run_outboundRows (py : Py) (op : Op) (w : World) :
    (op.run py w).2.outboundRows = match op with
      | .enqueueOutbound _ row => w.outboundRows ++ [row]
      | _ => w.outboundRows := by
  cases op with
  | insertUser | addMail =>
    rw [Op.run]
    split <;> rfl
  | enqueueOutbound => exact List.map_append
  | _ => first | rfl | exact Op.check_frame outboundRows rfl

variable {w : World} {origin : Origin} {rows : List OutboundRow}

theorem outboundRows_insertRows :
    (w.insertRows origin rows).outboundRows = w.outboundRows ++ rows := by
  induction rows generalizing w with
  | nil => exact (List.append_nil _).symm
  | cons row rows ih =>
    have hrow : (w.insertRow origin row).outboundRows = w.outboundRows ++ [row] := List.map_append
    show ((w.insertRow origin row).insertRows origin rows).outboundRows = _
    rw [ih, hrow, List.append_assoc, List.singleton_append]

theorem depth_eq : w.queue.outboundPendingDepth =
    (w.outboundRows.filter fun row => row.status = .pending).length := by
  unfold outboundRows Db.outboundPendingDepth
  rw [List.filter_map, List.length_map]
  rfl

theorem depth_insertRows (h : ∀ row ∈ rows, row.status = .pending) :
    (w.insertRows origin rows).queue.outboundPendingDepth =
      w.queue.outboundPendingDepth + rows.length := by
  rw [depth_eq, outboundRows_insertRows, List.filter_append, List.length_append, ← depth_eq,
    List.filter_eq_self.mpr fun row hrow => decide_eq_true (h row hrow)]

/-- A notification goes in while there is room. -/
theorem refuses_of_low {reply : Reply} (h : reply.priority = priorityNotification) :
    w.refuses reply =
      decide (w.cfg.limits.outboundQueueMaxDepth ≤ w.queue.outboundPendingDepth) := by
  have hlow : priorityNotification < priorityNormal := by decide
  simp [refuses, Reply.refused, h, hlow]

/-- What a reply leaves alone. -/
structure Aside (w w' : World) : Prop where
  clock : w'.clock = w.clock
  cfg : w'.cfg = w.cfg
  store : w'.toStore = w.toStore
  lastNotifyAt : w'.lastNotifyAt = w.lastNotifyAt

theorem insertRows_aside : w.Aside (w.insertRows origin rows) :=
  insertRows_induction (P := w.Aside) (fun _ _ _ h =>
    ⟨h.clock, h.cfg, h.store, h.lastNotifyAt⟩) ⟨rfl, rfl, rfl, rfl⟩

theorem enqueued_aside {reply : Reply} : w.Aside (w.enqueued origin reply) := by
  unfold enqueued
  split
  · exact ⟨rfl, rfl, rfl, rfl⟩
  · exact insertRows_aside

end World

namespace Dispatcher

variable {py : Py}

theorem run_insert {α : Type} (origin : Origin) (row : α → OutboundRow) (as : List α) (w : World) :
    (forEach (fun a => call (.enqueueOutbound origin (row a))) as).run (Op.run py) w =
      (some (), w.insertRows origin (as.map row)) := by
  induction as generalizing w with
  | nil => rfl
  | cons a as ih => simp [forEach, Op.run, ih, World.insertRows]

theorem run_enqueueReply (origin : Origin) (reply : Reply) (w : World) :
    (enqueueReply origin reply).run (Op.run py) w = (some (), w.enqueued origin reply) := by
  have hdepth : (call .outboundPendingDepth).run (Op.run py) w =
    (some w.queue.outboundPendingDepth, w) := rfl
  have hconfig : (call .config).run (Op.run py) w = (some w.cfg, w) := rfl
  have htime : (call .time).run (Op.run py) w = (some w.clock, w) := rfl
  unfold enqueueReply World.enqueued World.refuses
  rw [run_bind_of_some hdepth, run_bind_of_some hconfig]
  by_cases href : reply.refused w.cfg.limits w.queue.outboundPendingDepth = true
  · rw [if_pos href, if_pos href]
    rfl
  · rw [if_neg href, if_neg href, run_bind_of_some htime]
    exact run_insert origin (reply.row w.now) _ w

end Dispatcher

end Bbs
