import CoolPotOS.Machine
import CoolPotOS.Lib.Runs

namespace CoolPotOS

open List

def ipcQueueCapacity : ℕ := 256

/-- `IPC_MSG_TYPE_EPID`: a child has exited. -/
def ipcMsgTypeEpid : UInt8 := 5

/-- `IPC_MSG_TYPE_EXEC`: a child of `vfork` has called `execve`. -/
def ipcMsgTypeExec : UInt8 := 6

/-- `struct ipc_message`, with the bytes of `data` that are written. -/
structure IpcMessage where
  pid : ℤ
  type : UInt8
  data : List ℕ
  deriving DecidableEq, Repr

structure IpcQueue where
  items : ℕ → IpcMessage
  head : ℕ
  tail : ℕ
  size : ℕ
  head_lt : head < ipcQueueCapacity
  size_le : size ≤ ipcQueueCapacity
  tail_eq : tail = (head + size) % ipcQueueCapacity

def ipcQueueInit : IpcQueue where
  items := fun _ => ⟨0, 0, []⟩
  head := 0
  tail := 0
  size := 0
  head_lt := by decide
  size_le := Nat.zero_le _
  tail_eq := by decide

/-- The ring of `ipc_queue_dequeue` after its first message is taken. -/
def IpcQueue.drop (queue : IpcQueue) (h : queue.size ≠ 0) : IpcQueue where
  items := queue.items
  head := (queue.head + 1) % ipcQueueCapacity
  tail := queue.tail
  size := queue.size - 1
  head_lt := Nat.mod_lt _ (by decide)
  size_le := by
    have := queue.size_le
    omega
  tail_eq := by
    have := queue.tail_eq
    unfold ipcQueueCapacity at *
    omega

def ipcQueueDequeue (queue : IpcQueue) : IpcQueue × Option IpcMessage :=
  if h : queue.size = 0 then (queue, none)
  else (queue.drop h, some (queue.items queue.head))

/-- `ipc_queue_enqueue`; a message that finds the queue full is dropped. -/
def ipcQueueEnqueue (queue : IpcQueue) (item : IpcMessage) : IpcQueue :=
  if h : queue.size = ipcQueueCapacity then queue
  else
    { items := Function.update queue.items queue.tail item
      head := queue.head
      tail := (queue.tail + 1) % ipcQueueCapacity
      size := queue.size + 1
      head_lt := queue.head_lt
      size_le := by
        have := queue.size_le
        omega
      tail_eq := by
        have := queue.tail_eq
        unfold ipcQueueCapacity at *
        omega }

def ipcSend (queue : IpcQueue) (message : IpcMessage) : IpcQueue := ipcQueueEnqueue queue message

def ipcRecvLoop (type : UInt8) : ℕ → IpcQueue → IpcQueue × Option IpcMessage
  | 0, queue => (queue, none)
  | n + 1, queue =>
    match ipcQueueDequeue queue with
    | (queue, none) => (queue, none)
    | (queue, some message) =>
      if message.type = type then (queue, some message)
      else ipcRecvLoop type n (ipcQueueEnqueue queue message)

def ipcRecv (queue : IpcQueue) (type : UInt8) : IpcQueue × Option IpcMessage :=
  ipcRecvLoop type queue.size queue

variable {queue : IpcQueue} {message : IpcMessage} {rest before : List IpcMessage} {type : UInt8} {x : IpcState}

namespace IpcQueue

def messages (queue : IpcQueue) : List IpcMessage :=
  (List.range queue.size).map fun i => queue.items ((queue.head + i) % ipcQueueCapacity)

@[simp]
theorem length_messages (queue : IpcQueue) : queue.messages.length = queue.size := by
  simp [messages]

@[simp]
theorem messages_init : ipcQueueInit.messages = [] := rfl

theorem dequeue_cons (h : queue.messages = message :: rest) :
    ∃ queue', ipcQueueDequeue queue = (queue', some message) ∧ queue'.messages = rest := by
  have hsize : queue.size = rest.length + 1 := by
    rw [← queue.length_messages, h, length_cons]
  have hne : queue.size ≠ 0 := by omega
  unfold messages at h
  simp only [hsize, range_succ_eq_map, map_cons, map_map, cons.injEq,
    Nat.add_zero, Nat.mod_eq_of_lt queue.head_lt] at h
  refine ⟨queue.drop hne, ?_, ?_⟩
  · unfold ipcQueueDequeue
    rw [dif_neg hne, h.1]
  · refine Eq.trans ?_ h.2
    unfold messages drop
    simp only [hsize, Nat.add_sub_cancel]
    apply map_congr_left
    intro i _
    simp only [Function.comp_apply, Nat.succ_eq_add_one]
    congr 1
    unfold ipcQueueCapacity
    omega

theorem size_lt_of_dequeue {queue' : IpcQueue} (h : queue.messages = message :: rest)
    (h' : queue'.messages = rest) : queue'.size < ipcQueueCapacity := by
  have hle := queue.size_le
  rw [← queue.length_messages, h, length_cons] at hle
  rw [← queue'.length_messages, h']
  omega

theorem messages_enqueue (h : queue.size < ipcQueueCapacity) (message : IpcMessage) :
    (ipcQueueEnqueue queue message).messages = queue.messages ++ [message] := by
  unfold ipcQueueEnqueue
  rw [dif_neg h.ne]
  unfold messages
  simp only [range_succ, map_append, map_singleton, ← queue.tail_eq, Function.update_self]
  congr 1
  apply map_congr_left
  intro i hi
  rw [mem_range] at hi
  apply Function.update_of_ne
  rw [queue.tail_eq]
  unfold ipcQueueCapacity at *
  omega

end IpcQueue

theorem ipcRecvLoop_found {fuel : ℕ} (h : queue.messages = before ++ message :: rest)
    (hbefore : ∀ m ∈ before, m.type ≠ type) (htype : message.type = type) (hfuel : before.length < fuel) :
    ∃ queue', ipcRecvLoop type fuel queue = (queue', some message) ∧ queue'.messages = rest ++ before := by
  induction before generalizing queue rest fuel with
  | nil =>
    obtain ⟨fuel, rfl⟩ : ∃ n, fuel = n + 1 := ⟨fuel - 1, by simp at hfuel; omega⟩
    obtain ⟨queue', hdeq, hrest⟩ := IpcQueue.dequeue_cons h
    refine ⟨queue', ?_, by simpa using hrest⟩
    unfold ipcRecvLoop
    rw [hdeq]
    exact if_pos htype
  | cons m before ih =>
    obtain ⟨fuel, rfl⟩ : ∃ n, fuel = n + 1 := ⟨fuel - 1, by simp at hfuel; omega⟩
    obtain ⟨queue1, hdeq, hrest⟩ := IpcQueue.dequeue_cons h
    have hmsgs : (ipcQueueEnqueue queue1 m).messages = before ++ message :: (rest ++ [m]) := by
      rw [IpcQueue.messages_enqueue (IpcQueue.size_lt_of_dequeue h hrest), hrest]
      simp
    obtain ⟨queue', hloop, hlist⟩ := ih hmsgs (fun m' hm' => hbefore m' (mem_cons_of_mem _ hm'))
      (show before.length < fuel by simp at hfuel; omega)
    refine ⟨queue', ?_, by rw [hlist]; simp⟩
    unfold ipcRecvLoop
    rw [hdeq]
    exact (if_neg (hbefore m mem_cons_self)).trans hloop

/-- Without a message of the type, the loop of `ipc_recv` turns the ring by as many messages as
it looks at. -/
theorem ipcRecvLoop_none (h : queue.messages = before ++ rest) (hbefore : ∀ m ∈ before, m.type ≠ type) :
    ∃ queue', ipcRecvLoop type before.length queue = (queue', none) ∧ queue'.messages = rest ++ before := by
  induction before generalizing queue rest with
  | nil => exact ⟨queue, rfl, by simpa using h⟩
  | cons m before ih =>
    obtain ⟨queue1, hdeq, hrest⟩ := IpcQueue.dequeue_cons h
    have hmsgs : (ipcQueueEnqueue queue1 m).messages = before ++ (rest ++ [m]) := by
      rw [IpcQueue.messages_enqueue (IpcQueue.size_lt_of_dequeue h hrest), hrest]
      simp
    obtain ⟨queue', hloop, hlist⟩ := ih hmsgs (fun m' hm' => hbefore m' (mem_cons_of_mem _ hm'))
    refine ⟨queue', ?_, by rw [hlist]; simp⟩
    rw [length_cons]
    unfold ipcRecvLoop
    rw [hdeq]
    exact (if_neg (hbefore m mem_cons_self)).trans hloop

/-- What `ipc_recv` does: it takes the first message of the type, the messages before it go to
the end; without one the messages stay as they are. -/
theorem ipcRecv_cases (queue : IpcQueue) (type : UInt8) :
    (∃ queue' before message rest, ipcRecv queue type = (queue', some message) ∧
      queue.messages = before ++ message :: rest ∧ (∀ m ∈ before, m.type ≠ type) ∧
      message.type = type ∧ queue'.messages = rest ++ before) ∨
    ∃ queue', ipcRecv queue type = (queue', none) ∧ (∀ m ∈ queue.messages, m.type ≠ type) ∧
      queue'.messages = queue.messages := by
  cases hfind : queue.messages.find? (fun m => m.type = type) with
  | none =>
    right
    have hnone : ∀ m ∈ queue.messages, m.type ≠ type := by simpa using hfind
    obtain ⟨queue', hloop, hlist⟩ := ipcRecvLoop_none (append_nil queue.messages).symm hnone
    rw [queue.length_messages] at hloop
    exact ⟨queue', hloop, hnone, hlist⟩
  | some message =>
    left
    rw [List.find?_eq_some_iff_append] at hfind
    obtain ⟨htype, before, rest, hsplit, hbefore⟩ := hfind
    have htype : message.type = type := by simpa using htype
    have hbefore : ∀ m ∈ before, m.type ≠ type := by simpa using hbefore
    have hlen : before.length < queue.size := by
      rw [← queue.length_messages, hsplit]
      simp
    obtain ⟨queue', hloop, hlist⟩ := ipcRecvLoop_found hsplit hbefore htype hlen
    exact ⟨queue', before, message, rest, hloop, hsplit, hbefore, htype, hlist⟩

def ofType (type : UInt8) (messages : List IpcMessage) : List IpcMessage :=
  messages.filter fun m => m.type = type

@[simp]
theorem ofType_append (type : UInt8) (l l' : List IpcMessage) :
    ofType type (l ++ l') = ofType type l ++ ofType type l' := filter_append ..

theorem ofType_eq_nil {l : List IpcMessage} (h : ∀ m ∈ l, m.type ≠ type) : ofType type l = [] := by
  unfold ofType
  rw [filter_eq_nil_iff]
  simpa using h

inductive IpcOp
  | send (message : IpcMessage)
  | recv (type : UInt8)

/-- A queue with all that was sent to it and all that was received from it. -/
structure IpcState where
  queue : IpcQueue
  sent : List IpcMessage
  received : List IpcMessage

def IpcState.step (x : IpcState) : IpcOp → Option IpcState
  | .send message =>
    some { x with queue := ipcSend x.queue message, sent := x.sent ++ [message] }
  | .recv type =>
    some { x with
      queue := (ipcRecv x.queue type).1
      received := x.received ++ (ipcRecv x.queue type).2.toList }

def IpcOp.Fits (x : IpcState) : IpcOp → Prop
  | .send _ => x.queue.size < ipcQueueCapacity
  | .recv _ => True

instance (x : IpcState) : DecidablePred (IpcOp.Fits x)
  | .send _ => Nat.decLt ..
  | .recv _ => .isTrue trivial

/-- No type has messages both before and behind the one that is received. -/
def IpcOp.Unmixed (x : IpcState) : IpcOp → Prop
  | .send _ => True
  | .recv type =>
    ∀ a ∈ x.queue.messages.takeWhile (fun m => m.type ≠ type),
      ∀ b ∈ (x.queue.messages.dropWhile fun m => m.type ≠ type).tail, a.type ≠ b.type

instance (x : IpcState) : DecidablePred (IpcOp.Unmixed x)
  | .send _ => .isTrue trivial
  | .recv type => inferInstanceAs <| Decidable <|
      ∀ a ∈ x.queue.messages.takeWhile (fun m => m.type ≠ type),
        ∀ b ∈ (x.queue.messages.dropWhile fun m => m.type ≠ type).tail, a.type ≠ b.type

def IpcState.Conserved (x : IpcState) : Prop :=
  (x.received ++ x.queue.messages).Perm x.sent

/-- Of every type, what was received and then what is queued is what was sent, in order. -/
def IpcState.Ordered (x : IpcState) : Prop :=
  ∀ type, ofType type x.received ++ ofType type x.queue.messages = ofType type x.sent

theorem takeWhile_dropWhile_first (rest : List IpcMessage) (hbefore : ∀ m ∈ before, m.type ≠ type)
    (htype : message.type = type) : (before ++ message :: rest).takeWhile (fun m => m.type ≠ type) = before ∧
      (before ++ message :: rest).dropWhile (fun m => m.type ≠ type) = message :: rest := by
  rw [takeWhile_append_of_pos (by simpa using hbefore),
    dropWhile_append_of_pos (by simpa using hbefore)]
  simp [htype]

theorem IpcState.Conserved.step {x' : IpcState} {op : IpcOp} (h : x.Conserved) (hfits : op.Fits x)
    (hstep : x.step op = some x') : x'.Conserved := by
  unfold IpcState.Conserved at *
  cases op with
  | send message =>
    cases hstep
    have hroom : (ipcSend x.queue message).messages = x.queue.messages ++ [message] :=
      IpcQueue.messages_enqueue hfits message
    simp only [hroom, ← append_assoc]
    exact h.append_right [message]
  | recv type =>
    cases hstep
    rcases ipcRecv_cases x.queue type with
      ⟨queue, before, message, rest, hrecv, hsplit, -, -, hqueue⟩ | ⟨queue, hrecv, -, hqueue⟩
    · simp only [hrecv, hqueue, Option.toList_some, append_assoc]
      refine List.Perm.trans ?_ h
      rw [hsplit]
      apply List.Perm.append_left
      rw [singleton_append]
      exact (perm_append_comm.cons message).trans perm_middle.symm
    · simpa only [hrecv, hqueue, Option.toList_none, append_nil] using h

theorem IpcState.Ordered.step {x' : IpcState} {op : IpcOp} (h : x.Ordered) (hfits : op.Fits x)
    (hmix : op.Unmixed x) (hstep : x.step op = some x') : x'.Ordered := by
  intro t
  have ht := h t
  cases op with
  | send message =>
    cases hstep
    have hroom : (ipcSend x.queue message).messages = x.queue.messages ++ [message] :=
      IpcQueue.messages_enqueue hfits message
    simp only [hroom, ofType_append, ← append_assoc, ht]
  | recv type =>
    cases hstep
    rcases ipcRecv_cases x.queue type with
      ⟨queue, before, message, rest, hrecv, hsplit, hbefore, htype, hqueue⟩ |
      ⟨queue, hrecv, -, hqueue⟩
    · obtain ⟨htake, hdrop⟩ := takeWhile_dropWhile_first rest hbefore htype
      simp only [IpcOp.Unmixed, hsplit, htake, hdrop, tail_cons] at hmix
      simp only [hrecv, hqueue, Option.toList_some, ofType_append, append_assoc]
      have hcons : ofType t (message :: rest) = ofType t [message] ++ ofType t rest :=
        ofType_append t [message] rest
      rw [← ht, hsplit, ofType_append, hcons]
      congr 1
      -- one of the two sides has no message of type `t`
      by_cases hno : ∀ a ∈ before, a.type ≠ t
      · rw [ofType_eq_nil hno, append_nil, nil_append]
      · push Not at hno
        obtain ⟨a, ha, hat⟩ := hno
        have hrest : ofType t rest = [] := ofType_eq_nil fun b hb hbt => hmix a ha b hb (hat.trans hbt.symm)
        have hmessage : ofType t [message] = [] := by
          apply ofType_eq_nil
          intro m hm
          rw [mem_singleton.mp hm, htype, ← hat]
          exact (hbefore a ha).symm
        rw [hrest, hmessage, nil_append, nil_append, append_nil, append_nil]
    · simpa only [hrecv, hqueue, Option.toList_none, append_nil] using ht

theorem IpcState.Ordered.recv (h : x.Ordered) (type : UInt8) : (ipcRecv x.queue type).2 =
      ((ofType type x.sent).drop (ofType type x.received).length).head? := by
  rw [← h type, drop_left]
  rcases ipcRecv_cases x.queue type with
    ⟨queue, before, message, rest, hrecv, hsplit, hbefore, htype, -⟩ | ⟨queue, hrecv, hnone, -⟩
  · rw [hrecv, hsplit, ofType_append, ofType_eq_nil hbefore]
    simp [ofType, htype]
  · rw [hrecv, ofType_eq_nil hnone]
    rfl

/-- In a history in which no send finds the queue full, nothing is lost or comes twice. When also no
receive takes a message from between two messages of one other type, then of each type the messages
received are the messages sent, in order, and a receive gets the next of them. -/
theorem ipc_order (ops : List IpcOp)
    (hfits : Runs.Meets IpcState.step (fun x op => op.Fits x) ops ⟨ipcQueueInit, [], []⟩) :
    (∀ done, done <+: ops → ∃ x, Runs.run IpcState.step done ⟨ipcQueueInit, [], []⟩ = some x ∧
      x.Conserved) ∧
    (Runs.Meets IpcState.step (fun x op => op.Unmixed x) ops ⟨ipcQueueInit, [], []⟩ →
      ∀ done, done <+: ops → ∃ x, Runs.run IpcState.step done ⟨ipcQueueInit, [], []⟩ = some x ∧
        x.Ordered ∧ ∀ type, (ipcRecv x.queue type).2 =
          ((ofType type x.sent).drop (ofType type x.received).length).head?) := by
  have htotal : ∀ (x : IpcState) op, ∃ x', x.step op = some x' := by
    intro x op
    cases op <;> exact ⟨_, rfl⟩
  refine ⟨fun done hdone => ?_, fun hmix done hdone => ?_⟩
  · refine Runs.run_total (fun x op (h : x.Conserved) hok => ?_) ?_ (hfits.of_isPrefix hdone)
    · obtain ⟨x', hx'⟩ := htotal x op
      exact ⟨x', hx', h.step hok hx'⟩
    · exact List.Perm.refl []
  · obtain ⟨x, hx, hordered⟩ := Runs.run_total
      (fun x op (h : x.Ordered) (hok : op.Fits x ∧ op.Unmixed x) => by
        obtain ⟨x', hx'⟩ := htotal x op
        exact ⟨x', hx', h.step hok.1 hok.2 hx'⟩)
      (show IpcState.Ordered ⟨ipcQueueInit, [], []⟩ from fun _ => rfl)
      ((hfits.and hmix).of_isPrefix hdone)
    exact ⟨x, hx, hordered, hordered.recv⟩

theorem ipc_order_two_types :
    ∃ x, Runs.run IpcState.step [.send ⟨1, 5, []⟩, .send ⟨1, 6, []⟩, .recv 6, .recv 5]
      ⟨ipcQueueInit, [], []⟩ = some x ∧ x.Ordered := by
  have hfits : Runs.Meets IpcState.step (fun x op => op.Fits x)
      [.send ⟨1, 5, []⟩, .send ⟨1, 6, []⟩, .recv 6, .recv 5] ⟨ipcQueueInit, [], []⟩ := by
    decide
  have hmix : Runs.Meets IpcState.step (fun x op => op.Unmixed x)
      [.send ⟨1, 5, []⟩, .send ⟨1, 6, []⟩, .recv 6, .recv 5] ⟨ipcQueueInit, [], []⟩ := by
    decide
  obtain ⟨x, hx, hordered, -⟩ := (ipc_order _ hfits).2 hmix _ List.prefix_rfl
  exact ⟨x, hx, hordered⟩

/-- The receive of type 6 moves the older message of type 5 behind the newer one. -/
theorem ipcRecv_reorders :
    Runs.Meets IpcState.step (fun x op => op.Fits x)
      [.send ⟨1, 5, []⟩, .send ⟨3, 6, []⟩, .send ⟨2, 5, []⟩, .recv 6, .recv 5]
      ⟨ipcQueueInit, [], []⟩ ∧
    ∃ x, Runs.run IpcState.step
        [.send ⟨1, 5, []⟩, .send ⟨3, 6, []⟩, .send ⟨2, 5, []⟩, .recv 6, .recv 5]
        ⟨ipcQueueInit, [], []⟩ = some x ∧
      ofType 5 x.sent = [⟨1, 5, []⟩, ⟨2, 5, []⟩] ∧ ofType 5 x.received = [⟨2, 5, []⟩] ∧
      ¬ x.Ordered := by
  refine ⟨by decide, ?_⟩
  obtain ⟨x, hx⟩ : ∃ x, Runs.run IpcState.step
      [.send ⟨1, 5, []⟩, .send ⟨3, 6, []⟩, .send ⟨2, 5, []⟩, .recv 6, .recv 5]
      ⟨ipcQueueInit, [], []⟩ = some x := by
    apply Option.isSome_iff_exists.mp
    decide
  have hlists : ofType 5 x.sent = [⟨1, 5, []⟩, ⟨2, 5, []⟩] ∧
      ofType 5 x.received = [⟨2, 5, []⟩] := by
    revert x
    decide
  refine ⟨x, hx, hlists.1, hlists.2, fun hordered => ?_⟩
  have h5 := hordered 5
  rw [hlists.1, hlists.2] at h5
  simp at h5

end CoolPotOS
