import CoolPotOS.Task.Ipc

namespace CoolPotOS

open List

/-- The loop of `ipc_free_type` at round `i`. -/
def ipcFreeLoop (type : UInt8) : ℕ → ℕ → IpcQueue → IpcQueue
  | 0, _, queue => queue
  | fuel + 1, i, queue =>
    if i < queue.size then
      match ipcQueueDequeue queue with
      | (queue, none) => queue
      | (queue, some message) =>
        ipcFreeLoop type fuel (i + 1) (if message.type = type then queue else ipcQueueEnqueue queue message)
    else queue

/-- `ipc_free_type`. There are not more rounds than messages, because the size never grows. -/
def ipcFreeType (queue : IpcQueue) (type : UInt8) : IpcQueue := ipcFreeLoop type queue.size 0 queue

def withoutType (type : UInt8) (messages : List IpcMessage) : List IpcMessage :=
  messages.filter fun m => m.type ≠ type

section Loop

variable {type : UInt8} {queue : IpcQueue} {l d r rest kept : List IpcMessage}

theorem withoutType_append (type : UInt8) (l l' : List IpcMessage) :
    withoutType type (l ++ l') = withoutType type l ++ withoutType type l' := filter_append ..

theorem withoutType_eq_self : withoutType type l = l ↔ ∀ m ∈ l, m.type ≠ type := by
  unfold withoutType
  rw [filter_eq_self]
  simp

theorem withoutType_eq_nil : withoutType type l = [] ↔ ∀ m ∈ l, m.type = type := by
  unfold withoutType
  rw [filter_eq_nil_iff]
  simp

theorem length_withoutType_le : (withoutType type l).length ≤ l.length := length_filter_le ..

/-- The loop looks at the messages `d` and stops before `r`, which is the first place where it can. -/
structure StopsAt (type : UInt8) (i : ℕ) (kept d r : List IpcMessage) : Prop where
  stop : r.length + kept.length + (withoutType type d).length ≤ i + d.length
  first : ∀ d' m, d = d' ++ [m] → i + d'.length < r.length + 1 + kept.length + (withoutType type d').length

theorem ipcFreeLoop_spec {i fuel : ℕ} (h : queue.messages = rest ++ kept) (hkept : kept.length ≤ i)
    (hfuel : rest.length ≤ fuel) : ∃ d r, rest = d ++ r ∧ StopsAt type i kept d r ∧
      (ipcFreeLoop type fuel i queue).messages = r ++ kept ++ withoutType type d := by
  induction fuel generalizing i queue rest kept with
  | zero =>
    obtain rfl := length_eq_zero_iff.mp (Nat.le_zero.mp hfuel)
    refine ⟨[], [], rfl, ⟨?_, fun d' m hd => ?_⟩, ?_⟩
    · simpa [withoutType] using hkept
    · simp at hd
    · simpa [ipcFreeLoop, withoutType] using h
  | succ fuel ih =>
    have hsize : queue.size = rest.length + kept.length := by
      rw [← queue.length_messages, h, length_append]
    unfold ipcFreeLoop
    by_cases hi : i < queue.size
    · rw [if_pos hi]
      cases rest with
      | nil =>
        rw [hsize, length_nil] at hi
        omega
      | cons m rest =>
        have hdequeue : ∃ queue', ipcQueueDequeue queue = (queue', some m) ∧ queue'.messages = rest ++ kept :=
          IpcQueue.dequeue_cons h
        obtain ⟨queue', hdeq, hmsgs⟩ := hdequeue
        rw [hdeq]
        dsimp only
        by_cases hm : m.type = type
        · rw [if_pos hm]
          obtain ⟨d, r, hsplit, hstop, hfinal⟩ :=
            ih hmsgs (Nat.le_succ_of_le hkept) (Nat.le_of_succ_le_succ hfuel)
          have hnil : withoutType type [m] = [] := withoutType_eq_nil.mpr (by simpa using hm)
          have hcons : ∀ l, withoutType type (m :: l) = withoutType type l := by
            intro l
            rw [← singleton_append, withoutType_append, hnil, nil_append]
          refine ⟨m :: d, r, by rw [hsplit, cons_append], ⟨?_, ?_⟩, ?_⟩
          · have := hstop.stop
            rw [hcons, length_cons]
            omega
          · intro d' x hd
            cases d' with
            | nil =>
              rw [nil_append, List.cons.injEq] at hd
              obtain ⟨-, rfl⟩ := hd
              rw [hsplit, nil_append, length_cons] at hsize
              simp only [length_nil, withoutType, filter_nil]
              omega
            | cons y d' =>
              rw [cons_append, List.cons.injEq] at hd
              obtain ⟨rfl, hd⟩ := hd
              have := hstop.first d' x hd
              rw [hcons, length_cons]
              omega
          · rw [hfinal, hcons]
        · rw [if_neg hm]
          have hmsgs' : (ipcQueueEnqueue queue' m).messages = rest ++ (kept ++ [m]) := by
            rw [IpcQueue.messages_enqueue (IpcQueue.size_lt_of_dequeue h hmsgs), hmsgs, append_assoc]
          obtain ⟨d, r, hsplit, hstop, hfinal⟩ :=
            ih hmsgs' (show (kept ++ [m]).length ≤ i + 1 by simpa using hkept) (Nat.le_of_succ_le_succ hfuel)
          have hself : withoutType type [m] = [m] := withoutType_eq_self.mpr (by simpa using hm)
          have hcons : ∀ l, withoutType type (m :: l) = m :: withoutType type l := by
            intro l
            rw [← singleton_append, withoutType_append, hself, singleton_append]
          have hlen : (kept ++ [m]).length = kept.length + 1 := by simp
          refine ⟨m :: d, r, by rw [hsplit, cons_append], ⟨?_, ?_⟩, ?_⟩
          · have := hstop.stop
            rw [hcons, length_cons, length_cons]
            omega
          · intro d' x hd
            cases d' with
            | nil =>
              rw [nil_append, List.cons.injEq] at hd
              obtain ⟨-, rfl⟩ := hd
              rw [hsplit, nil_append, length_cons] at hsize
              simp only [length_nil, withoutType, filter_nil]
              omega
            | cons y d' =>
              rw [cons_append, List.cons.injEq] at hd
              obtain ⟨rfl, hd⟩ := hd
              have := hstop.first d' x hd
              rw [hcons, length_cons, length_cons]
              omega
          · rw [hfinal, hcons, append_assoc, append_assoc, append_assoc]
            rfl
    · rw [if_neg hi]
      refine ⟨[], rest, rfl, ⟨?_, fun d' m hd => ?_⟩, ?_⟩
      · rw [hsize] at hi
        simpa [withoutType] using hi
      · simp at hd
      · simpa [withoutType] using h

/-- The queue loses the messages of the type and no others: there is none before the last message, or they are
the first half of the queue. -/
def FreesAll (type : UInt8) (messages : List IpcMessage) : Prop :=
  (∀ m ∈ messages.dropLast, m.type ≠ type) ∨
    (∀ m ∈ messages.take ((messages.length + 1) / 2), m.type = type) ∧
      ∀ m ∈ messages.drop ((messages.length + 1) / 2), m.type ≠ type

theorem ipcFreeType_spec (queue : IpcQueue) (type : UInt8) :
    ∃ d r, queue.messages = d ++ r ∧ StopsAt type 0 [] d r ∧
      (ipcFreeType queue type).messages = r ++ withoutType type d := by
  have hloop : ∃ d r, queue.messages = d ++ r ∧ StopsAt type 0 [] d r ∧
      (ipcFreeType queue type).messages = r ++ [] ++ withoutType type d :=
    ipcFreeLoop_spec (append_nil queue.messages).symm (Nat.zero_le 0) queue.length_messages.le
  obtain ⟨d, r, hsplit, hstop, hfinal⟩ := hloop
  rw [append_nil] at hfinal
  exact ⟨d, r, hsplit, hstop, hfinal⟩

theorem StopsAt.of_frees {messages : List IpcMessage} (h : StopsAt type 0 [] d r) (hsplit : messages = d ++ r)
    (hfrees : FreesAll type messages) : r ++ withoutType type d = withoutType type messages := by
  have hstop := h.stop
  rw [length_nil] at hstop
  rcases hfrees with hlast | ⟨hfront, hback⟩
  · -- the loop frees nothing before the last message, so that it sees them all
    have hnil : r = [] := by
      by_contra hr
      have hd : withoutType type d = d := by
        apply withoutType_eq_self.mpr
        intro m hm
        apply hlast m
        rw [hsplit, dropLast_append_of_ne_nil hr]
        exact mem_append_left _ hm
      have hlen := length_pos_of_ne_nil hr
      rw [hd] at hstop
      omega
    rw [hsplit, hnil, append_nil, nil_append]
  · generalize hhalf : (messages.length + 1) / 2 = half at hfront hback
    have hlen : messages.length = d.length + r.length := by rw [hsplit, length_append]
    rcases Nat.lt_or_ge half d.length with hlt | hge
    · -- the loop would have stopped at the end of the first half
      obtain ⟨d', m, rfl⟩ : ∃ d' m, d = d' ++ [m] := by
        refine ⟨d.dropLast, d.getLast ?_, (dropLast_append_getLast ?_).symm⟩
        all_goals
          rintro rfl
          simp at hlt
      have hfirst := h.first d' m rfl
      rw [length_append, length_singleton] at hlt hlen
      have hd' : d' = messages.take half ++ d'.drop half := by
        rw [hsplit, append_assoc, take_append_of_le_length (by omega), take_append_drop]
      have hfree : withoutType type d' = withoutType type (d'.drop half) := by
        rw [hd', withoutType_append, withoutType_eq_nil.mpr hfront, nil_append, ← hd']
      have hle : (withoutType type (d'.drop half)).length ≤ (d'.drop half).length := length_withoutType_le
      rw [hfree, length_nil] at hfirst
      rw [length_drop] at hle
      omega
    · have hdtake : ∀ m ∈ d, m.type = type := by
        intro m hm
        apply hfront m
        rw [hsplit, take_append, take_of_length_le hge]
        exact mem_append_left _ hm
      have hd : withoutType type d = [] := withoutType_eq_nil.mpr hdtake
      have hdlen : d.length = half := by
        rw [hd, length_nil] at hstop
        rcases eq_nil_or_concat d with rfl | ⟨d', m, rfl⟩
        · simp only [length_nil] at hstop hlen ⊢
          omega
        · omega
      have hr : withoutType type r = r := by
        apply withoutType_eq_self.mpr
        intro m hm
        apply hback m
        rw [hsplit, ← hdlen, drop_left]
        exact hm
      rw [hsplit, withoutType_append, hd, hr, append_nil, nil_append]

theorem StopsAt.frees {messages : List IpcMessage} (h : StopsAt type 0 [] d r) (hsplit : messages = d ++ r)
    (hnodup : messages.Nodup) (heq : r ++ withoutType type d = withoutType type messages) :
    FreesAll type messages := by
  have hstop := h.stop
  rw [length_nil] at hstop
  have hfirst := h.first
  cases hr : r with
  | nil =>
    left
    rw [hsplit, hr, append_nil]
    intro m hm
    rcases eq_nil_or_concat d with rfl | ⟨d', x, rfl⟩
    · cases hm
    · rw [concat_eq_append] at hm hfirst
      rw [dropLast_concat] at hm
      have := hfirst d' x rfl
      rw [hr, length_nil] at this
      have hle : (withoutType type d').length ≤ d'.length := length_withoutType_le
      have hself := length_filter_eq_length_iff.mp (show (withoutType type d').length = d'.length by omega) m hm
      simpa using hself
  | cons y r' =>
    right
    have hother : ∀ m ∈ r, m.type ≠ type := by
      intro m hm
      have hmem : m ∈ withoutType type messages := heq ▸ mem_append_left _ hm
      simpa using of_mem_filter hmem
    have hnil : withoutType type d = [] := by
      rw [hsplit, withoutType_append, withoutType_eq_self.mpr hother] at heq
      cases hkept : withoutType type d with
      | nil => rfl
      | cons z kept' =>
        -- a message that was looked at and kept is behind all the others now
        rw [hkept, hr, cons_append, cons_append, List.cons.injEq] at heq
        have hz : z ∈ d := by
          have hmem : z ∈ withoutType type d := by simp [hkept]
          exact mem_of_mem_filter hmem
        rw [hsplit, nodup_append] at hnodup
        exact absurd heq.1.symm (hnodup.2.2 z hz y (by simp [hr]))
    rw [hnil, length_nil] at hstop
    have hlen : d.length = (messages.length + 1) / 2 := by
      rw [hsplit, length_append]
      rcases eq_nil_or_concat d with rfl | ⟨d', x, rfl⟩
      · rw [hr, length_cons, length_nil] at hstop
        omega
      · rw [concat_eq_append] at hfirst hstop hnil ⊢
        have hlast := hfirst d' x rfl
        have hnil' : withoutType type d' = [] := by
          rw [withoutType_append] at hnil
          exact (append_eq_nil_iff.mp hnil).1
        rw [hnil', length_nil] at hlast
        rw [length_append, length_singleton] at hstop ⊢
        omega
    rw [← hlen, hsplit, take_left, drop_left]
    exact ⟨withoutType_eq_nil.mp hnil, hother⟩

end Loop

/-- When `ipc_free_type` leaves the messages of the other types, all of them and in their order. Messages are
different allocations; where equal ones count as the same, a queue may look right that is out of order. -/
theorem ipcFreeType_frees (queue : IpcQueue) (type : UInt8) :
    (FreesAll type queue.messages → (ipcFreeType queue type).messages = withoutType type queue.messages) ∧
      (queue.messages.Nodup → (ipcFreeType queue type).messages = withoutType type queue.messages →
        FreesAll type queue.messages) := by
  obtain ⟨d, r, hsplit, hstop, hfinal⟩ := ipcFreeType_spec queue type
  rw [hfinal]
  exact ⟨fun h => hstop.of_frees hsplit h, fun hnodup heq => hstop.frees hsplit hnodup heq⟩

/-- The two notices of exited children are sent by different processes. -/
def twoExits : IpcQueue := ipcSend (ipcSend ipcQueueInit ⟨3, ipcMsgTypeEpid, []⟩) ⟨4, ipcMsgTypeEpid, []⟩

theorem ipcFreeType_frees_twoExits :
    (ipcFreeType twoExits ipcMsgTypeExec).messages = withoutType ipcMsgTypeExec twoExits.messages :=
  (ipcFreeType_frees twoExits ipcMsgTypeExec).1 (.inl (by decide))

/-- Of two messages of a type the second one stays in the queue. -/
theorem ipcFreeType_leaves : ¬ ∀ queue type,
    (ipcFreeType queue type).messages = withoutType type queue.messages := by
  intro hclaim
  have hleft : (ipcFreeType twoExits ipcMsgTypeEpid).messages ≠ withoutType ipcMsgTypeEpid twoExits.messages := by
    decide
  exact hleft (hclaim twoExits ipcMsgTypeEpid)

end CoolPotOS
