import Mathlib.Logic.Function.Basic
import Pringles.Lib.Machine

/-!
# Handing messages over

A producer puts the messages that it receives into queues, and every queue has a consumer. A
consumer that finds its queue empty sleeps on a condition variable, under the mutex of the queue.
The producer puts a message into a queue without the mutex. Then it takes the mutex and lets it go,
and wakes whoever sleeps. A flag tells all threads to stop. Somebody raises it and, later, wakes the
sleepers of some of the queues, all without a mutex.

Each access to a queue, to the flag, to a mutex or to a condition variable is one step; only the
lock and the unlock at the ends of a critical section go with the access next to them.

Every message is handed over once, in order (`puts_run`), and whatever state the threads are in,
they can go on to hand over what has been put into a queue: no message is slept through
(`Inv.exists_delivery`). While the flag is down, the producer can take another message, and that
gets through, too (`Inv.exists_handled`).
-/

universe u v

namespace Handoff

/-- Where a consumer is. -/
inductive Consumer (α : Type v) where
  /-- Before it looks at the flag. -/
  | start
  /-- Before it takes the mutex. -/
  | enter
  /-- Has the mutex, before it looks at the flag. -/
  | test
  /-- Has the mutex, and has not seen the flag. -/
  | peek
  /-- Has the mutex, and has found the queue empty. -/
  | drowsy
  | asleep
  /-- Before it takes the mutex again. -/
  | woken
  /-- Has the mutex, and need not wait. -/
  | awake
  /-- Has the mutex, before it takes a message. -/
  | take
  | holds (x : α)
  | gone

/-- Where the producer is; `lock k` is behind the put into queue `k`. -/
inductive Producer (κ : Type u) where
  | start
  | listen
  | lock (k : κ)
  | inside (k : κ)
  | notify (k : κ)
  | gone
  deriving DecidableEq

/-- The queues that have a consumer, the consumers that look at the flag when their wait is over, and
the queues whose sleepers are woken at the end. -/
structure Config (κ : Type u) where
  works : κ → Bool
  leaves : κ → Bool
  wakes : List κ

inductive Event (κ : Type u) (α : Type v) where
  | receive (m : Option (κ × α))
  | produce
  | consume (k : κ)
  | spurious (k : κ)
  | raise
  | close
  | wake

inductive Done (κ : Type u) (α : Type v) where
  | internal
  | put (k : κ) (x : α)
  | handled (k : κ) (x : α)

namespace Consumer

variable {α : Type v} {leaves stop blocked : Bool} {q q' : List α} {c c' : Consumer α}

def HasLock : Consumer α → Bool
  | test | peek | drowsy | awake | take => true
  | _ => false

/-- The message that a consumer has taken. -/
def held : Consumer α → List α
  | holds x => [x]
  | _ => []

/-- The next step of a consumer, with the queue that it leaves. `blocked` says that the producer has
the mutex. -/
def next (leaves stop blocked : Bool) (q : List α) : Consumer α → Option (Consumer α × List α)
  | start => some (if stop then gone else enter, q)
  | enter => if blocked then none else some (test, q)
  | test => some (if stop then awake else peek, q)
  | peek => some (if q.isEmpty then drowsy else awake, q)
  | drowsy => some (asleep, q)
  | asleep => none
  | woken => if blocked then none else some (test, q)
  | awake => some (if leaves && stop then gone else take, q)
  | take =>
    match q with
    | [] => some (start, [])
    | x :: q => some (holds x, q)
  | holds _ => some (start, q)
  | gone => none

/-- The message that a step hands over. -/
def handed : Consumer α → Option α
  | holds x => some x
  | _ => none

/-- A message goes from the queue to the consumer, and from there to whoever handles it. -/
theorem next_held (h : next leaves stop blocked q c = some (c', q')) :
    c.handed.toList ++ (c'.held ++ q') = c.held ++ q := by
  cases c with
  | start | test | peek | awake =>
    simp only [next, Option.some.injEq, Prod.mk.injEq] at h
    obtain ⟨rfl, rfl⟩ := h
    split <;> rfl
  | enter | woken =>
    simp only [next, Option.ite_none_left_eq_some, Option.some.injEq, Prod.mk.injEq] at h
    obtain ⟨-, rfl, rfl⟩ := h
    rfl
  | drowsy | holds =>
    simp only [next, Option.some.injEq, Prod.mk.injEq] at h
    obtain ⟨rfl, rfl⟩ := h
    rfl
  | asleep | gone => simp [next] at h
  | take =>
    cases q with
    | nil =>
      simp only [next, Option.some.injEq, Prod.mk.injEq] at h
      obtain ⟨rfl, rfl⟩ := h
      rfl
    | cons x q =>
      simp only [next, Option.some.injEq, Prod.mk.injEq] at h
      obtain ⟨rfl, rfl⟩ := h
      rfl

/-- A consumer gets drowsy only at an empty queue and falls asleep only when drowsy; it takes the
mutex only when the producer has not, and leaves only when it sees the flag. -/
structure NextSpec (stop blocked : Bool) (q : List α) (c c' : Consumer α) (q' : List α) : Prop where
  to_peek : c' = peek → stop = false
  to_drowsy : c' = drowsy → c = peek ∧ q = [] ∧ q' = []
  to_asleep : c' = asleep → c = drowsy ∧ q' = q
  locks : c'.HasLock = true → c.HasLock = true ∨ blocked = false
  to_gone : c' = gone → stop = true

theorem next_spec (h : next leaves stop blocked q c = some (c', q')) :
    NextSpec stop blocked q c c' q' := by
  cases c with
  | asleep | gone => simp [next] at h
  | drowsy | holds =>
    simp only [next, Option.some.injEq, Prod.mk.injEq] at h
    obtain ⟨rfl, rfl⟩ := h
    constructor <;> simp [HasLock]
  | start | test | awake =>
    simp only [next, Option.some.injEq, Prod.mk.injEq] at h
    obtain ⟨rfl, rfl⟩ := h
    constructor <;> split <;> simp_all [HasLock]
  | peek =>
    simp only [next, Option.some.injEq, Prod.mk.injEq] at h
    obtain ⟨rfl, rfl⟩ := h
    cases q <;> constructor <;> simp [HasLock]
  | enter | woken =>
    simp only [next, Option.ite_none_left_eq_some, Option.some.injEq, Prod.mk.injEq] at h
    obtain ⟨hfree, rfl, rfl⟩ := h
    constructor <;> simp [hfree]
  | take =>
    cases q with
    | nil =>
      simp only [next, Option.some.injEq, Prod.mk.injEq] at h
      obtain ⟨rfl, rfl⟩ := h
      constructor <;> simp [HasLock]
    | cons x q =>
      simp only [next, Option.some.injEq, Prod.mk.injEq] at h
      obtain ⟨rfl, rfl⟩ := h
      constructor <;> simp [HasLock]

/-! ### How far a consumer is from what it does -/

/-- From letting the mutex go. -/
def lockRank : Consumer α → Nat
  | test => 5
  | peek => 4
  | awake => 2
  | drowsy | take => 1
  | _ => 0

theorem next_hasLock (h : c.HasLock = true) : ∃ c' q',
    next leaves stop blocked q c = some (c', q') ∧ c'.lockRank < c.lockRank := by
  cases c with
  | start | enter | asleep | woken | holds | gone => cases h
  | test => exact ⟨_, _, rfl, by split <;> simp [lockRank]⟩
  | peek => exact ⟨_, _, rfl, by split <;> simp [lockRank]⟩
  | drowsy => exact ⟨_, _, rfl, by simp [lockRank]⟩
  | awake => exact ⟨_, _, rfl, by split <;> simp [lockRank]⟩
  | take => cases q <;> exact ⟨_, _, rfl, by simp [lockRank]⟩

/-- From an empty queue with nothing in hand. -/
def drainRank (q : List α) : Consumer α → Nat
  | holds _ => 7 * q.length + 1
  | start => 7 * q.length
  | enter | woken => 7 * q.length - 1
  | test => 7 * q.length - 2
  | peek => 7 * q.length - 3
  | awake => 7 * q.length - 4
  | take => 7 * q.length - 5
  | _ => 0

theorem next_drains (leaves : Bool) (hgone : c ≠ gone) (hsleep : c = drowsy ∨ c = asleep → q = [])
    (hmore : ¬ (c.held = [] ∧ q = [])) : ∃ c' q',
    next leaves false false q c = some (c', q') ∧ c'.drainRank q' < c.drainRank q := by
  have hpos : c.held = [] → 0 < q.length := fun hc =>
    List.length_pos_iff.2 fun hq => hmore ⟨hc, hq⟩
  cases c with
  | drowsy => exact absurd ⟨rfl, hsleep (.inl rfl)⟩ hmore
  | asleep => exact absurd ⟨rfl, hsleep (.inr rfl)⟩ hmore
  | gone => exact absurd rfl hgone
  | holds x => exact ⟨_, _, rfl, by simp [drainRank]⟩
  | peek =>
    have := hpos rfl
    refine ⟨_, _, rfl, ?_⟩
    rw [if_neg (by simpa [List.isEmpty_iff] using List.ne_nil_of_length_pos this)]
    simp only [drainRank]
    omega
  | take =>
    cases q with
    | nil => exact absurd ⟨rfl, rfl⟩ hmore
    | cons x q =>
      refine ⟨_, _, rfl, ?_⟩
      simp only [drainRank, List.length_cons]
      omega
  | start | enter | test | woken | awake =>
    have := hpos rfl
    refine ⟨_, _, rfl, ?_⟩
    simp only [drainRank, Bool.and_false, Bool.false_eq_true, if_false]
    omega

/-- From the end, when the flag is up. -/
def leaveRank : Consumer α → Nat
  | enter | woken => 6
  | test | peek => 5
  | awake => 4
  | take => 3
  | holds _ => 2
  | start => 1
  | _ => 0

theorem next_leaves (leaves : Bool) (hgone : c ≠ gone) (hdrowsy : c ≠ drowsy) (hasleep : c ≠ asleep)
    (hpeek : c = peek → q ≠ []) : ∃ c' q', next leaves true false q c = some (c', q') ∧
      c'.leaveRank < c.leaveRank ∧ c' ≠ drowsy ∧ c' ≠ asleep ∧ c' ≠ peek := by
  cases c with
  | drowsy => exact absurd rfl hdrowsy
  | asleep => exact absurd rfl hasleep
  | gone => exact absurd rfl hgone
  | peek =>
    refine ⟨_, _, rfl, ?_⟩
    rw [if_neg (by simpa [List.isEmpty_iff] using hpeek rfl)]
    simp [leaveRank]
  | take => cases q <;> exact ⟨_, _, rfl, by simp [leaveRank]⟩
  | awake => cases leaves <;> exact ⟨_, _, rfl, by simp [leaveRank]⟩
  | start | enter | test | woken | holds => exact ⟨_, _, rfl, by simp [leaveRank]⟩

/-- What notifying does to a consumer. -/
def roused : Consumer α → Consumer α
  | asleep => woken
  | c => c

@[simp] theorem held_roused (c : Consumer α) : c.roused.held = c.held := by cases c <;> rfl

@[simp] theorem hasLock_roused (c : Consumer α) : c.roused.HasLock = c.HasLock := by
  cases c <;> rfl

@[simp] theorem roused_ne_asleep (c : Consumer α) : c.roused ≠ asleep := by
  cases c <;> simp [roused]

@[simp] theorem roused_eq_peek : c.roused = peek ↔ c = peek := by cases c <;> simp [roused]

@[simp] theorem roused_eq_drowsy : c.roused = drowsy ↔ c = drowsy := by cases c <;> simp [roused]

@[simp] theorem roused_eq_gone : c.roused = gone ↔ c = gone := by cases c <;> simp [roused]

end Consumer

end Handoff

/-- The threads and what they share. `waking` lists the queues whose sleepers are still to be woken,
once that has begun. -/
structure Handoff (κ : Type u) (α : Type v) where
  queue : κ → List α := fun _ => []
  consumer : κ → Handoff.Consumer α := fun _ => .start
  producer : Handoff.Producer κ := .start
  stop : Bool := false
  waking : Option (List κ) := none

namespace Handoff

variable {κ : Type u} {α : Type v} [DecidableEq κ] {cfg : Config κ} {s s' : Handoff κ α}
  {e : Event κ α} {o : Done κ α} {k j : κ} {x : α} {tr : List (Event κ α × Done κ α)}

/-! ## Steps -/

/-- Whoever sleeps at queue `k` wakes up. -/
def rouse (s : Handoff κ α) (k : κ) : Handoff κ α :=
  { s with consumer := Function.update s.consumer k (s.consumer k).roused }

def receive (s : Handoff κ α) (m : Option (κ × α)) : Option (Handoff κ α × Done κ α) :=
  match s.producer, m with
  | .listen, none => some ({ s with producer := .start }, .internal)
  | .listen, some (k, x) =>
    some ({ s with
      queue := Function.update s.queue k (s.queue k ++ [x])
      producer := .lock k }, .put k x)
  | _, _ => none

def produce (s : Handoff κ α) : Option (Handoff κ α) :=
  match s.producer with
  | .start => some { s with producer := if s.stop then .gone else .listen }
  | .listen => none
  | .lock k => if (s.consumer k).HasLock then none else some { s with producer := .inside k }
  | .inside k => some { s with producer := .notify k }
  | .notify k => some { s.rouse k with producer := .start }
  | .gone => none

/-- What has been done when consumer `k` has handed a message over, or has not. -/
def Done.ofHanded (k : κ) : Option α → Done κ α
  | some x => .handled k x
  | none => .internal

def consume (cfg : Config κ) (s : Handoff κ α) (k : κ) : Option (Handoff κ α × Done κ α) :=
  if cfg.works k then
    ((s.consumer k).next (cfg.leaves k) s.stop (decide (s.producer = .inside k)) (s.queue k)).map
      fun p =>
        ({ s with
          consumer := Function.update s.consumer k p.1
          queue := Function.update s.queue k p.2 }, .ofHanded k (s.consumer k).handed)
  else none

def step (cfg : Config κ) (s : Handoff κ α) : Event κ α → Option (Handoff κ α × Done κ α)
  | .receive m => s.receive m
  | .produce => s.produce.map fun s' => (s', .internal)
  | .consume k => s.consume cfg k
  | .spurious k =>
    match s.consumer k with
    | .asleep => some (s.rouse k, .internal)
    | _ => none
  | .raise => if s.waking.isNone then some ({ s with stop := true }, .internal) else none
  | .close =>
    if s.waking.isNone then some ({ s with waking := some cfg.wakes }, .internal) else none
  | .wake =>
    match s.waking with
    | some (k :: ks) => some ({ s.rouse k with waking := some ks }, .internal)
    | _ => none

variable (α) in
def machine (cfg : Config κ) : Machine (Handoff κ α) (Event κ α) (Done κ α) := ⟨step cfg⟩

/-- The steps that need nothing from outside. -/
def Event.Internal : Event κ α → Prop
  | produce => True
  | consume _ => True
  | _ => False

/-- Anything but what the producer receives. -/
def Event.Closed : Event κ α → Prop
  | receive _ => False
  | _ => True

/-! ## One queue

What a step does is said once, as far as one queue sees it. -/

/-- A queue with its consumer, and what is not its own. -/
structure View (κ : Type u) (α : Type v) where
  queue : List α
  consumer : Consumer α
  producer : Producer κ
  stop : Bool
  waking : Option (List κ)

def view (s : Handoff κ α) (k : κ) : View κ α :=
  ⟨s.queue k, s.consumer k, s.producer, s.stop, s.waking⟩

/-- The message for queue `k` that comes in. -/
def Event.message (k : κ) : Event κ α → Option α
  | receive (some (j, x)) => if j = k then some x else none
  | _ => none

/-- The message that has been put into queue `k`. -/
def Done.putIn (k : κ) : Done κ α → Option α
  | put j x => if j = k then some x else none
  | _ => none

/-- The message that consumer `k` has handed over. -/
def Done.handedBy (k : κ) : Done κ α → Option α
  | handled j x => if j = k then some x else none
  | _ => none

theorem Event.eq_receive (h : e.message k = some x) : e = .receive (some (k, x)) := by
  cases e with
  | receive m =>
    cases m with
    | none => cases h
    | some q =>
      obtain ⟨j, y⟩ := q
      simp only [Event.message, Option.ite_none_right_eq_some, Option.some.injEq] at h
      rw [h.1, h.2]
  | _ => cases h

@[simp] theorem handedBy_handled (k : κ) (x : α) : (Done.handled k x).handedBy k = some x :=
  if_pos rfl

@[simp] theorem handedBy_ofHanded (k : κ) (m : Option α) :
    (Done.ofHanded k m).handedBy k = m := by cases m <;> simp [Done.ofHanded, Done.handedBy]

@[simp] theorem putIn_ofHanded (j k : κ) (m : Option α) :
    (Done.ofHanded j m).putIn k = none := by cases m <;> rfl

theorem handedBy_ofHanded_ne (h : j ≠ k) (m : Option α) :
    (Done.ofHanded j m).handedBy k = none := by
  cases m <;> simp [Done.ofHanded, Done.handedBy, h]

/-- What an event does to the view of queue `k`. -/
inductive Moves (cfg : Config κ) (k : κ) : Event κ α → Done κ α → View κ α → View κ α → Prop
  | consume (v : View κ α) (c : Consumer α) (q : List α) (works : cfg.works k = true)
      (next : v.consumer.next (cfg.leaves k) v.stop (decide (v.producer = .inside k)) v.queue =
        some (c, q)) : Moves cfg k (.consume k) (.ofHanded k v.consumer.handed) v
          { v with consumer := c, queue := q }
  | other (v : View κ α) (e : Event κ α) (j : κ) (ne : j ≠ k)
      (event : e = .consume j ∨ e = .spurious j) (o : Done κ α) (quiet : o.putIn k = none)
      (none_handed : o.handedBy k = none) : Moves cfg k e o v v
  | idle (v : View κ α) (listens : v.producer = .listen) :
      Moves cfg k (.receive none) .internal v { v with producer := .start }
  | put (v : View κ α) (x : α) (listens : v.producer = .listen) :
      Moves cfg k (.receive (some (k, x))) (.put k x) v
        { v with queue := v.queue ++ [x], producer := .lock k }
  | putOther (v : View κ α) (j : κ) (x : α) (ne : j ≠ k) (listens : v.producer = .listen) :
      Moves cfg k (.receive (some (j, x))) (.put j x) v { v with producer := .lock j }
  | begin (v : View κ α) (starts : v.producer = .start) :
      Moves cfg k .produce .internal v { v with producer := if v.stop then .gone else .listen }
  | lock (v : View κ α) (before : v.producer = .lock k) (free : v.consumer.HasLock = false) :
      Moves cfg k .produce .internal v { v with producer := .inside k }
  | lockOther (v : View κ α) (j : κ) (ne : j ≠ k) (before : v.producer = .lock j) :
      Moves cfg k .produce .internal v { v with producer := .inside j }
  | unlock (v : View κ α) (j : κ) (before : v.producer = .inside j) :
      Moves cfg k .produce .internal v { v with producer := .notify j }
  | notify (v : View κ α) (before : v.producer = .notify k) :
      Moves cfg k .produce .internal v { v with consumer := v.consumer.roused, producer := .start }
  | notifyOther (v : View κ α) (j : κ) (ne : j ≠ k) (before : v.producer = .notify j) :
      Moves cfg k .produce .internal v { v with producer := .start }
  | spurious (v : View κ α) :
      Moves cfg k (.spurious k) .internal v { v with consumer := v.consumer.roused }
  | raise (v : View κ α) (waits : v.waking = none) :
      Moves cfg k .raise .internal v { v with stop := true }
  | close (v : View κ α) (waits : v.waking = none) :
      Moves cfg k .close .internal v { v with waking := some cfg.wakes }
  | wake (v : View κ α) (ks : List κ) (before : v.waking = some (k :: ks)) :
      Moves cfg k .wake .internal v { v with consumer := v.consumer.roused, waking := some ks }
  | wakeOther (v : View κ α) (j : κ) (ks : List κ) (ne : j ≠ k)
      (before : v.waking = some (j :: ks)) :
      Moves cfg k .wake .internal v { v with waking := some ks }

/-- **What a step does to a queue.** -/
theorem step_moves (h : (machine α cfg).step s e = some (s', o)) (k : κ) :
    Moves cfg k e o (s.view k) (s'.view k) := by
  change step cfg s e = _ at h
  cases e with
  | receive m =>
    simp only [step, receive] at h
    split at h
    · simp only [Option.some.injEq, Prod.mk.injEq] at h
      obtain ⟨rfl, rfl⟩ := h
      exact .idle _ ‹_›
    · rename_i j x hp
      simp only [Option.some.injEq, Prod.mk.injEq] at h
      obtain ⟨rfl, rfl⟩ := h
      by_cases hj : j = k
      · subst hj
        simpa [view] using Moves.put (s.view j) x hp
      · simpa [view, Function.update_of_ne (Ne.symm hj)] using
          Moves.putOther (s.view k) j x hj hp
    · cases h
  | produce =>
    simp only [step, Option.map_eq_some_iff, Prod.mk.injEq] at h
    obtain ⟨t, h, rfl, rfl⟩ := h
    unfold produce at h
    split at h
    · rename_i hp
      cases h
      exact .begin _ hp
    · cases h
    · rename_i j hp
      split at h
      · cases h
      · rename_i hfree
        cases h
        by_cases hj : j = k
        · subst hj
          exact .lock _ hp (Bool.not_eq_true _ ▸ hfree)
        · exact .lockOther _ j hj hp
    · rename_i j hp
      cases h
      exact .unlock _ j hp
    · rename_i j hp
      cases h
      by_cases hj : j = k
      · subst hj
        simpa [view, rouse] using Moves.notify (s.view j) hp
      · simpa [view, rouse, Function.update_of_ne (Ne.symm hj)] using
          Moves.notifyOther (s.view k) j hj hp
    · cases h
  | consume j =>
    simp only [step, consume, Option.ite_none_right_eq_some, Option.map_eq_some_iff,
      Prod.mk.injEq] at h
    obtain ⟨hworks, ⟨c, q⟩, hnext, rfl, rfl⟩ := h
    by_cases hj : j = k
    · subst hj
      simpa [view] using Moves.consume (s.view j) c q hworks hnext
    · simpa [view, Function.update_of_ne (Ne.symm hj)] using
        Moves.other (s.view k) (.consume j) j hj (.inl rfl) _ (putIn_ofHanded ..)
          (handedBy_ofHanded_ne hj _)
  | spurious j =>
    simp only [step] at h
    split at h
    · simp only [Option.some.injEq, Prod.mk.injEq] at h
      obtain ⟨rfl, rfl⟩ := h
      by_cases hj : j = k
      · subst hj
        simpa [view, rouse] using Moves.spurious (s.view j)
      · simpa [view, rouse, Function.update_of_ne (Ne.symm hj)] using
          Moves.other (s.view k) (.spurious j) j hj (.inr rfl) .internal rfl rfl
    · cases h
  | raise =>
    simp only [step, Option.ite_none_right_eq_some, Option.some.injEq, Prod.mk.injEq] at h
    obtain ⟨hw, rfl, rfl⟩ := h
    exact .raise _ (Option.isNone_iff_eq_none.1 hw)
  | close =>
    simp only [step, Option.ite_none_right_eq_some, Option.some.injEq, Prod.mk.injEq] at h
    obtain ⟨hw, rfl, rfl⟩ := h
    exact .close _ (Option.isNone_iff_eq_none.1 hw)
  | wake =>
    simp only [step] at h
    split at h
    · rename_i j ks hw
      simp only [Option.some.injEq, Prod.mk.injEq] at h
      obtain ⟨rfl, rfl⟩ := h
      by_cases hj : j = k
      · subst hj
        simpa [view, rouse] using Moves.wake (s.view j) ks hw
      · simpa [view, rouse, Function.update_of_ne (Ne.symm hj)] using
          Moves.wakeOther (s.view k) j ks hj hw
    · cases h

/-! ## Once and in order -/

/-- What has been put into queue `k`, whatever the trace says beside. -/
def puts {ε : Type*} (k : κ) (tr : List (ε × Done κ α)) : List α := tr.filterMap fun x => x.2.putIn k

/-- What consumer `k` has handed over. -/
def handedOver {ε : Type*} (k : κ) (tr : List (ε × Done κ α)) : List α :=
  tr.filterMap fun x => x.2.handedBy k

theorem puts_eq_map {ε : Type*} (k : κ) (tr : List (ε × Done κ α)) :
    puts k tr = (tr.map Prod.snd).filterMap fun o => o.putIn k := by
  rw [List.filterMap_map]
  rfl

theorem handedOver_eq_map {ε : Type*} (k : κ) (tr : List (ε × Done κ α)) :
    handedOver k tr = (tr.map Prod.snd).filterMap fun o => o.handedBy k := by
  rw [List.filterMap_map]
  rfl

theorem Moves.order {v v' : View κ α} (h : Moves cfg k e o v v') :
    (o.handedBy k).toList ++ (v'.consumer.held ++ v'.queue) =
      v.consumer.held ++ v.queue ++ (o.putIn k).toList := by
  cases h with
  | consume _ c q works next => simp [Consumer.next_held next]
  | other _ _ j _ _ _ quiet none_handed => simp [quiet, none_handed]
  | put | putOther => simp_all [Done.handedBy, Done.putIn]
  | _ => simp [Done.handedBy, Done.putIn]

theorem Moves.putIn {v v' : View κ α} (h : Moves cfg k e o v v') : o.putIn k = e.message k := by
  cases h with
  | consume _ c q works next => exact putIn_ofHanded k k _
  | other _ _ j ne event _ quiet none_handed =>
    rcases event with rfl | rfl
    · exact quiet
    · exact quiet
  | put => simp [Done.putIn, Event.message]
  | putOther _ j x ne => simp [Done.putIn, Event.message, ne]
  | _ => rfl

omit [DecidableEq κ] in
theorem filterMap_snoc_toList {β : Type*} {γ : Type*} (f : β → Option γ) (l : List β) (x : β) :
    (l ++ [x]).filterMap f = l.filterMap f ++ (f x).toList := by
  rw [List.filterMap_append, List.filterMap_cons, List.filterMap_nil]
  cases f x <;> rfl

theorem puts_snoc {ε : Type*} {tr : List (ε × Done κ α)} {e : ε} :
    puts k (tr ++ [(e, o)]) = puts k tr ++ (o.putIn k).toList :=
  filterMap_snoc_toList _ _ _

theorem handedOver_snoc {ε : Type*} {tr : List (ε × Done κ α)} {e : ε} :
    handedOver k (tr ++ [(e, o)]) = handedOver k tr ++ (o.handedBy k).toList :=
  filterMap_snoc_toList _ _ _

/-- **Every message is handed over once, in the order of the puts.** -/
theorem puts_run (hr : (machine α cfg).Run {} tr s) (k : κ) :
    puts k tr = handedOver k tr ++ ((s.consumer k).held ++ s.queue k) := by
  refine hr.invariant (I := fun tr s => puts k tr =
      handedOver k tr ++ ((s.consumer k).held ++ s.queue k)) (B := fun _ => True)
    (A := fun _ => True) (fun _ _ _ _ _ _ _ => trivial) ?_ (fun _ _ => trivial) rfl trivial
  rintro tr s e s' o - hsofar - hs
  have horder := (step_moves hs k).order
  simp only [view] at horder
  rw [puts_snoc, handedOver_snoc, hsofar, List.append_assoc, ← horder, List.append_assoc]

/-- Only a consumer that is there hands over. -/
theorem Moves.handed_works {v v' : View κ α} (h : Moves cfg k e o v v')
    (hworks : cfg.works k = false) : o.handedBy k = none := by
  cases h with
  | consume _ c q works next => simp [works] at hworks
  | other _ _ j _ _ _ quiet none_handed => exact none_handed
  | _ => rfl

theorem Moves.handed_event {v v' : View κ α} (h : Moves cfg k e o v v')
    (hx : o.handedBy k = some x) : e = .consume k := by
  cases h with
  | consume => rfl
  | other _ _ j _ _ _ quiet none_handed => simp [none_handed] at hx
  | _ => simp [Done.handedBy] at hx

theorem handedOver_eq_nil (hr : (machine α cfg).Run s tr s') (hworks : cfg.works k = false) :
    handedOver k tr = [] := by
  refine List.filterMap_eq_nil_iff.2 fun x hx => ?_
  obtain ⟨pre, post, rfl⟩ := List.append_of_mem hx
  obtain ⟨m, m', -, hs, -⟩ := hr.split_cons
  exact (step_moves hs k).handed_works hworks

/-! ## No message is slept through -/

/-- The producer is on the way to wake the consumer of queue `k`. -/
def Producer.Serves (k : κ) (p : Producer κ) : Prop :=
  p = .lock k ∨ p = .inside k ∨ p = .notify k

/-- A consumer that sleeps, or is about to, while there is a message has the producer on its way to
wake it; and only one of the two has the mutex. -/
structure View.Inv (cfg : Config κ) (k : κ) (v : View κ α) : Prop where
  drowsy : v.consumer = .drowsy → v.queue ≠ [] → v.producer = .lock k
  asleep : v.consumer = .asleep → v.queue ≠ [] → v.producer.Serves k
  exclusive : v.producer = .inside k → v.consumer.HasLock = false
  gone : v.consumer = .gone → v.stop = true
  works : v.consumer.HasLock = true → cfg.works k = true

omit [DecidableEq κ] in
/-- What the producer does while it does not serve the queue. -/
theorem View.Inv.elsewhere {v : View κ α} (hv : v.Inv cfg k) (hn : ¬ v.producer.Serves k)
    {p : Producer κ} (hp : p ≠ .inside k) : View.Inv cfg k { v with producer := p } where
  drowsy hc hq := absurd (.inl (hv.drowsy hc hq)) hn
  asleep hc hq := absurd (hv.asleep hc hq) hn
  exclusive h := absurd h hp
  gone := hv.gone
  works := hv.works

omit [DecidableEq κ] in
theorem View.Inv.roused {v : View κ α} (hv : v.Inv cfg k) :
    View.Inv cfg k { v with consumer := v.consumer.roused } where
  drowsy hc := hv.drowsy (Consumer.roused_eq_drowsy.1 hc)
  asleep hc := absurd hc (Consumer.roused_ne_asleep _)
  exclusive hp := (Consumer.hasLock_roused _).trans (hv.exclusive hp)
  gone hc := hv.gone (Consumer.roused_eq_gone.1 hc)
  works hl := hv.works ((Consumer.hasLock_roused _).symm.trans hl)

theorem Moves.inv {v v' : View κ α} (h : Moves cfg k e o v v') (hv : v.Inv cfg k) :
    v'.Inv cfg k := by
  cases h with
  | consume _ c q works next =>
    have spec := Consumer.next_spec next
    refine ⟨fun hc hq => absurd (spec.to_drowsy hc).2.2 hq, fun hc hq => ?_, fun hp => ?_,
      spec.to_gone, fun _ => works⟩
    · obtain ⟨hcd, rfl⟩ := spec.to_asleep hc
      exact .inl (hv.drowsy hcd hq)
    · by_contra hl
      rcases spec.locks (eq_true_of_ne_false hl) with hl | hfree
      · rw [hv.exclusive hp] at hl
        cases hl
      · exact absurd hp (of_decide_eq_false hfree)
  | other => exact hv
  | idle _ listens => exact hv.elsewhere (by simp [listens, Producer.Serves]) (by simp)
  | put _ x listens => exact ⟨fun _ _ => rfl, fun _ _ => .inl rfl, by rintro ⟨⟩, hv.gone, hv.works⟩
  | putOther _ j x ne listens => exact hv.elsewhere (by simp [listens, Producer.Serves]) (by simp)
  | begin _ starts =>
    refine hv.elsewhere (by simp [starts, Producer.Serves]) ?_
    split <;> simp
  | lock _ before free =>
    refine ⟨fun hc => ?_, fun _ _ => .inr (.inl rfl), fun _ => free, hv.gone, hv.works⟩
    rw [hc] at free
    cases free
  | lockOther _ j ne before =>
    exact hv.elsewhere (by simp [before, Producer.Serves, ne]) (by simp [ne])
  | unlock _ j before =>
    by_cases hj : j = k
    · subst hj
      refine ⟨fun hc hq => ?_, fun _ _ => .inr (.inr rfl), by rintro ⟨⟩, hv.gone, hv.works⟩
      exact absurd (hv.drowsy hc hq) (by simp [before])
    · exact hv.elsewhere (by simp [before, Producer.Serves, hj]) (by simp)
  | notify _ before =>
    refine ⟨fun hc hq => ?_, fun hc => absurd hc (Consumer.roused_ne_asleep _), by rintro ⟨⟩,
      hv.roused.gone, hv.roused.works⟩
    exact absurd (hv.drowsy (Consumer.roused_eq_drowsy.1 hc) hq) (by simp [before])
  | notifyOther _ j ne before =>
    exact hv.elsewhere (by simp [before, Producer.Serves, ne]) (by simp)
  | spurious | wake => exact ⟨hv.roused.1, hv.roused.2, hv.roused.3, hv.roused.4, hv.roused.5⟩
  | raise => exact ⟨hv.drowsy, hv.asleep, hv.exclusive, fun _ => rfl, hv.works⟩
  | close | wakeOther => exact ⟨hv.drowsy, hv.asleep, hv.exclusive, hv.gone, hv.works⟩

def Inv (cfg : Config κ) (s : Handoff κ α) : Prop := ∀ k, (s.view k).Inv cfg k

omit [DecidableEq κ] in
theorem inv_start (cfg : Config κ) : ({} : Handoff κ α).Inv cfg := fun _ =>
  ⟨by rintro ⟨⟩, by rintro ⟨⟩, by rintro ⟨⟩, by rintro ⟨⟩, by rintro ⟨⟩⟩

theorem Inv.step (h : s.Inv cfg) (hs : (machine α cfg).step s e = some (s', o)) : s'.Inv cfg :=
  fun k => (step_moves hs k).inv (h k)

theorem Inv.run (h : s.Inv cfg) (hr : (machine α cfg).Run s tr s') : s'.Inv cfg :=
  hr.mono (R := fun s s' : Handoff κ α => s.Inv cfg → s'.Inv cfg) (A := fun _ => True) (fun _ h => h)
    (fun _ _ _ hab hbc h => hbc (hab h)) (fun _ _ _ _ _ hs h => h.step hs) (fun _ _ => trivial) h

theorem consume_eq_some {c : Consumer α} {q : List α} (hworks : cfg.works k = true)
    (h : (s.consumer k).next (cfg.leaves k) s.stop (decide (s.producer = .inside k)) (s.queue k) =
      some (c, q)) :
    ∃ o, (machine α cfg).step s (.consume k) =
      some ({ s with
        consumer := Function.update s.consumer k c
        queue := Function.update s.queue k q }, o) := by
  refine ⟨.ofHanded k (s.consumer k).handed, ?_⟩
  change s.consume cfg k = _
  rw [consume, if_pos hworks, h]
  rfl

/-- How far the producer is from having woken whom it serves. -/
def producerRank (s : Handoff κ α) : Nat :=
  match s.producer with
  | .lock k => 3 + (s.consumer k).lockRank
  | .inside _ => 2
  | .notify _ => 1
  | _ => 0

/-- The producer can finish what it has begun. -/
theorem Inv.exists_settled (h : s.Inv cfg) : ∃ tr s', (machine α cfg).Run s tr s' ∧
    (∀ x ∈ tr, x.1.Internal) ∧ s'.Inv cfg ∧ ∀ k, ¬ s'.producer.Serves k := by
  refine Machine.exists_run_of_lt (I := Inv cfg) (G := fun s => ∀ k, ¬ s.producer.Serves k)
    producerRank ?_ h
  intro s h hserves
  have hproduce : ∀ t, s.produce = some t → (machine α cfg).step s .produce = some (t, .internal) :=
    fun t ht => by simp [machine, Handoff.step, ht]
  cases hp : s.producer with
  | start | listen | gone => exact absurd (fun k => by simp [hp, Producer.Serves]) hserves
  | lock k =>
    by_cases hl : (s.consumer k).HasLock = true
    · obtain ⟨c, q, hnext, hlt⟩ := Consumer.next_hasLock hl
      obtain ⟨o, hs⟩ := consume_eq_some ((h k).works hl) hnext
      refine ⟨.consume k, _, o, trivial, hs, h.step hs, ?_⟩
      simp only [producerRank, hp, Function.update_self]
      omega
    · have hs := hproduce { s with producer := .inside k } (by simp [produce, hp, hl])
      refine ⟨.produce, _, _, trivial, hs, h.step hs, ?_⟩
      simp only [producerRank, hp]
      omega
  | inside k =>
    have hs := hproduce { s with producer := .notify k } (by simp [produce, hp])
    exact ⟨.produce, _, _, trivial, hs, h.step hs, by simp [producerRank, hp]⟩
  | notify k =>
    have hs := hproduce { s.rouse k with producer := .start } (by simp [produce, hp])
    exact ⟨.produce, _, _, trivial, hs, h.step hs, by simp [producerRank, hp]⟩

/-- The producer does not keep consumer `k` from its mutex. -/
theorem not_blocked (h : ¬ s.producer.Serves k) : decide (s.producer = .inside k) = false :=
  decide_eq_false fun hp => h (.inr (.inl hp))

/-- A consumer that the producer does not serve drains its queue. -/
theorem Inv.exists_drained (h : s.Inv cfg) (hworks : cfg.works k = true) (hstop : s.stop = false)
    (hserves : ¬ s.producer.Serves k) : ∃ tr s', (machine α cfg).Run s tr s' ∧
      (∀ x ∈ tr, x.1.Internal) ∧ (s'.consumer k).held = [] ∧ s'.queue k = [] := by
  obtain ⟨tr, s', hr, hint, -, hdone⟩ := Machine.exists_run_of_lt (M := machine α cfg)
    (I := fun s => s.Inv cfg ∧ s.stop = false ∧ ¬ s.producer.Serves k)
    (G := fun s => (s.consumer k).held = [] ∧ s.queue k = []) (A := Event.Internal)
    (fun s => (s.consumer k).drainRank (s.queue k)) (by
      rintro s ⟨h, hstop, hserves⟩ hmore
      have hk := h k
      have hgone : s.consumer k ≠ .gone := fun hc => by simpa [view, hstop] using hk.gone hc
      have hsleep : s.consumer k = .drowsy ∨ s.consumer k = .asleep → s.queue k = [] := by
        intro hc
        by_contra hq
        rcases hc with hc | hc
        · exact hserves (.inl (hk.drowsy hc hq))
        · exact hserves (hk.asleep hc hq)
      obtain ⟨c, q, hnext, hlt⟩ := Consumer.next_drains (cfg.leaves k) hgone hsleep hmore
      obtain ⟨o, hs⟩ := consume_eq_some hworks (by rw [hstop, not_blocked hserves, hnext])
      refine ⟨.consume k, _, o, trivial, hs, ⟨h.step hs, hstop, hserves⟩, ?_⟩
      simpa using hlt) ⟨h, hstop, hserves⟩
  exact ⟨tr, s', hr, hint, hdone⟩

/-- What happens inside leaves the flag and the wakers alone. -/
theorem internal_step (hint : e.Internal) (hs : (machine α cfg).step s e = some (s', o)) :
    s'.stop = s.stop ∧ s'.waking = s.waking := by
  change step cfg s e = _ at hs
  cases e with
  | produce =>
    simp only [step, Option.map_eq_some_iff, Prod.mk.injEq] at hs
    obtain ⟨t, ht, rfl, rfl⟩ := hs
    unfold produce at ht
    split at ht
    · cases ht
      exact ⟨rfl, rfl⟩
    · cases ht
    · split at ht
      · cases ht
      · cases ht
        exact ⟨rfl, rfl⟩
    · cases ht
      exact ⟨rfl, rfl⟩
    · cases ht
      exact ⟨rfl, rfl⟩
    · cases ht
  | consume j =>
    simp only [step, consume, Option.ite_none_right_eq_some, Option.map_eq_some_iff,
      Prod.mk.injEq] at hs
    obtain ⟨-, p, -, rfl, rfl⟩ := hs
    exact ⟨rfl, rfl⟩
  | receive | spurious | raise | close | wake => exact absurd hint (by simp [Event.Internal])

theorem internal_run (hr : (machine α cfg).Run s tr s') (hint : ∀ x ∈ tr, x.1.Internal) :
    s'.stop = s.stop ∧ s'.waking = s.waking :=
  hr.mono (R := fun s s' : Handoff κ α => s'.stop = s.stop ∧ s'.waking = s.waking)
    (A := Event.Internal) (fun _ => ⟨rfl, rfl⟩)
    (fun _ _ _ hab hbc => ⟨hbc.1.trans hab.1, hbc.2.trans hab.2⟩)
    (fun _ _ _ _ he hs => internal_step he hs) hint

/-- **No message is slept through.** While the flag is down, the threads can go on by themselves
until everything that has been put into queue `k` is handed over. -/
theorem Inv.exists_delivery (h : s.Inv cfg) (hworks : cfg.works k = true) (hstop : s.stop = false) :
    ∃ tr s', (machine α cfg).Run s tr s' ∧ (∀ x ∈ tr, x.1.Internal) ∧
      (s'.consumer k).held = [] ∧ s'.queue k = [] := by
  obtain ⟨tr₁, s₁, hr₁, hint₁, h₁, hserves⟩ := h.exists_settled
  have hstop₁ : s₁.stop = false := (internal_run hr₁ hint₁).1.trans hstop
  obtain ⟨tr₂, s₂, hr₂, hint₂, hdone⟩ := h₁.exists_drained hworks hstop₁ (hserves k)
  exact ⟨tr₁ ++ tr₂, s₂, hr₁.append hr₂, List.forall_mem_append.2 ⟨hint₁, hint₂⟩, hdone⟩

/-! ## A message gets through -/

/-- The producer leaves only when the flag is up. -/
theorem Moves.producer_gone {v v' : View κ α} (h : Moves cfg k e o v v')
    (hv : v.producer = .gone → v.stop = true) : v'.producer = .gone → v'.stop = true := by
  cases h with
  | begin _ starts =>
    intro hgone
    by_contra hstop
    simp [hstop] at hgone
  | raise => exact fun _ => rfl
  | idle | put | putOther | lock | lockOther | unlock | notify | notifyOther => rintro ⟨⟩
  | consume | other | spurious | close | wake | wakeOther => exact hv

theorem producer_gone_run (hr : (machine α cfg).Run s tr s') (k : κ)
    (h : s.producer = .gone → s.stop = true) : s'.producer = .gone → s'.stop = true := by
  induction hr with
  | nil => exact h
  | snoc _ hs ih => exact (step_moves hs k).producer_gone ih

/-- The producer can get to where it takes a message. -/
theorem Inv.exists_listening (h : s.Inv cfg) (k : κ) (hgone : s.producer = .gone → s.stop = true)
    (hstop : s.stop = false) : ∃ tr s', (machine α cfg).Run s tr s' ∧ (∀ x ∈ tr, x.1.Internal) ∧
      s'.Inv cfg ∧ s'.stop = false ∧ s'.producer = .listen := by
  obtain ⟨tr, s', hr, hint, h', hserves⟩ := h.exists_settled
  have hstop' : s'.stop = false := (internal_run hr hint).1.trans hstop
  cases hp : s'.producer with
  | start =>
    have hs : (machine α cfg).step s' .produce =
        some ({ s' with producer := .listen }, .internal) := by
      simp [machine, Handoff.step, produce, hp, hstop']
    exact ⟨_, _, hr.snoc hs, List.forall_mem_append.2 ⟨hint, List.forall_mem_singleton.2 trivial⟩,
      h'.step hs, hstop', rfl⟩
  | listen => exact ⟨tr, s', hr, hint, h', hstop', hp⟩
  | lock j => exact absurd (.inl hp) (hserves j)
  | inside j => exact absurd (.inr (.inl hp)) (hserves j)
  | notify j => exact absurd (.inr (.inr hp)) (hserves j)
  | gone =>
    rw [producer_gone_run hr k hgone hp] at hstop'
    cases hstop'

theorem eq_handled (h : o.handedBy k = some x) : o = .handled k x := by
  cases o with
  | handled j y =>
    simp only [Done.handedBy, Option.ite_none_right_eq_some, Option.some.injEq] at h
    rw [h.1, h.2]
  | _ => cases h

/-- A message that was there and is there no more has been handed over. -/
theorem handled_of_gone (hr : (machine α cfg).Run s tr s')
    (hmem : x ∈ (s.consumer k).held ++ s.queue k)
    (hgone : x ∉ (s'.consumer k).held ++ s'.queue k) :
    ∃ tr₁ tr₂, tr = tr₁ ++ (.consume k, .handled k x) :: tr₂ := by
  induction hr with
  | nil => exact absurd hmem hgone
  | @snoc s₁ s₂ tr e o _ hs ih =>
    by_cases hmem₁ : x ∈ (s₁.consumer k).held ++ s₁.queue k
    · have hmoves := step_moves hs k
      have hall : x ∈ (o.handedBy k).toList ++ ((s₂.consumer k).held ++ s₂.queue k) := by
        have horder := hmoves.order
        simp only [view] at horder
        rw [horder]
        exact List.mem_append_left _ hmem₁
      have ho := Option.mem_toList.1 ((List.mem_append.1 hall).resolve_right hgone)
      rw [hmoves.handed_event ho, eq_handled ho]
      exact ⟨tr, [], rfl⟩
    · obtain ⟨tr₁, tr₂, rfl⟩ := ih hmem₁
      exact ⟨tr₁, tr₂ ++ [(e, o)], by simp⟩

/-- **A message gets through.** While the flag is down, the producer can take the next message, and
its consumer can hand it over. -/
theorem Inv.exists_handled (h : s.Inv cfg) (hgone : s.producer = .gone → s.stop = true)
    (hstop : s.stop = false) (hworks : cfg.works k = true) (x : α) :
    ∃ tr₁ m m' tr₂ s', (machine α cfg).Run s tr₁ m ∧
      (machine α cfg).step m (.receive (some (k, x))) = some (m', .put k x) ∧
      (machine α cfg).Run m' (tr₂ ++ [(.consume k, .handled k x)]) s' ∧
      (∀ y ∈ tr₁, y.1.Internal) ∧ ∀ y ∈ tr₂, y.1.Internal := by
  obtain ⟨tr₁, m, hr₁, hint₁, hm, hstop₁, hlisten⟩ := h.exists_listening k hgone hstop
  obtain ⟨m', hs, hstop', hmem⟩ : ∃ m', (machine α cfg).step m (.receive (some (k, x))) =
      some (m', .put k x) ∧ m'.stop = false ∧ x ∈ (m'.consumer k).held ++ m'.queue k :=
    ⟨{ m with queue := Function.update m.queue k (m.queue k ++ [x]), producer := .lock k },
      by simp [machine, Handoff.step, receive, hlisten], hstop₁, by simp⟩
  obtain ⟨tr, s', hr, hint, hheld, hqueue⟩ := (hm.step hs).exists_delivery hworks hstop'
  obtain ⟨tr₂, tr₃, rfl⟩ := handled_of_gone hr hmem (by simp [hheld, hqueue])
  rw [List.append_cons] at hr
  obtain ⟨s'', hr₂, -⟩ := hr.split
  exact ⟨tr₁, m, m', tr₂, s'', hr₁, hs, hr₂, hint₁, fun y hy => hint y (List.mem_append_left _ hy)⟩

end Handoff
