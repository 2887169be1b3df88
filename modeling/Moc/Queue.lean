import Moc.Lib.Links
import Moc.Lib.Runs

/-!
# The queues of entries

`server/queue.c` and the queue of `client/mscli.c`, which are the same code over two entry types. A
queue has the two ends of a list that is linked by the `prev` fields of its entries, from `bottom`,
where entries are taken out, to `top`. `Queue.Lists` is the list that a queue stands for. Threads
work on a queue under its lock, so a run of the queue is any sequence of their operations in which
only the holder of the lock operates.
-/

open Links Runs

namespace Moc

variable {ρ τ : Type}

/-- `struct queue` and `struct msqueue`, with the `prev` fields of all entries. -/
structure Queue (ρ : Type) where
  size : ℕ
  top : Option ρ
  bottom : Option ρ
  prev : ρ → Option ρ

/-- `queue_create` and `msqueue_create`, where the entries have these `prev` fields. -/
def queueCreate (prev : ρ → Option ρ) : Queue ρ := ⟨0, none, none, prev⟩

section
variable [DecidableEq ρ]

/-- `queue_put` -/
def queuePut (q : Queue ρ) (e : ρ) : Queue ρ :=
  let q := match q.top with
    | none => { q with top := some e, bottom := some e }
    | some t => { q with prev := Function.update q.prev t (some e), top := some e }
  { q with size := q.size + 1 }

/-- `queue_cas` -/
def queueCas (q : Queue ρ) (e : ρ) : Queue ρ :=
  let q := match q.top with
    | none => { q with top := some e, bottom := some e }
    | some _ => { q with prev := Function.update q.prev e q.bottom, bottom := some e }
  { q with size := q.size + 1 }

/-- `msqueue_put` -/
def msqueuePut (q : Queue ρ) (e : ρ) : Queue ρ := queuePut q e

/-- `msqueue_cas` -/
def msqueueCas (q : Queue ρ) (e : ρ) : Queue ρ := queueCas q e

end

/-- `queue_get` -/
def queueGet (q : Queue ρ) : Option ρ × Queue ρ :=
  match q.bottom with
  | none => (none, q)
  | some e =>
    let t := q.prev e
    let q := { q with bottom := t }
    let q := if t = none then { q with top := none } else q
    (some e, { q with size := q.size - 1 })

/-- `queue_isempty` -/
def queueIsempty (q : Queue ρ) : Bool := q.size = 0

/-- `msqueue_get` -/
def msqueueGet (q : Queue ρ) : Option ρ × Queue ρ := queueGet q

/-- `msqueue_isempty` -/
def msqueueIsempty (q : Queue ρ) : Bool := queueIsempty q

/-! ## The list of a queue -/

/-- A queue that stands for the list `l` of entries, the next one to be taken out first. -/
structure Queue.Lists (q : Queue ρ) (l : List ρ) : Prop where
  follows : Follows q.prev q.bottom l
  top_eq : q.top = l.getLast?
  size_eq : q.size = l.length

theorem queueCreate_lists (prev : ρ → Option ρ) : (queueCreate prev).Lists [] := ⟨rfl, rfl, rfl⟩

section
variable {q : Queue ρ} {l : List ρ}

/-- The queue is empty exactly when its top is NULL. -/
theorem Queue.Lists.top_eq_none_iff (h : q.Lists l) : q.top = none ↔ l = [] := by
  rw [h.top_eq, List.getLast?_eq_none_iff]

theorem queueIsempty_iff (h : q.Lists l) : queueIsempty q = true ↔ l = [] := by
  rw [queueIsempty, decide_eq_true_eq, h.size_eq, List.length_eq_zero_iff]

section
variable [DecidableEq ρ] {e : ρ}

/-- `queue_put` appends an entry that is not in the queue and whose `prev` is NULL. -/
theorem queuePut_lists (h : q.Lists l) (hprev : q.prev e = none) (he : e ∉ l) :
    (queuePut q e).Lists (l ++ [e]) := by
  have hsize := h.size_eq
  unfold queuePut
  cases htop : q.top with
  | none =>
    obtain rfl := h.top_eq_none_iff.mp htop
    exact ⟨⟨rfl, hprev⟩, rfl, by simp [hsize]⟩
  | some t =>
    obtain ⟨front, rfl⟩ := List.getLast?_eq_some_iff.mp (h.top_eq.symm.trans htop)
    refine ⟨h.follows.concat he hprev, ?_, ?_⟩
    · simp
    · simp [hsize]

/-- `queue_cas` puts such an entry in front. -/
theorem queueCas_lists (h : q.Lists l) (hprev : q.prev e = none) (he : e ∉ l) :
    (queueCas q e).Lists (e :: l) := by
  have hsize := h.size_eq
  unfold queueCas
  cases htop : q.top with
  | none =>
    obtain rfl := h.top_eq_none_iff.mp htop
    exact ⟨⟨rfl, hprev⟩, rfl, by simp [hsize]⟩
  | some t =>
    have hlast : (e :: l).getLast? = some t := by
      rw [List.getLast?_cons, ← h.top_eq, htop]
      rfl
    exact ⟨h.follows.push he, hlast.symm, by simp [hsize]⟩

end

/-- `queue_get` returns the first entry, or NULL. -/
theorem queueGet_fst (h : q.Lists l) : (queueGet q).1 = l.head? := by
  have hhead := h.follows.head?_eq
  unfold queueGet
  cases hb : q.bottom with
  | none =>
    rw [hb] at hhead
    exact hhead
  | some e =>
    rw [hb] at hhead
    exact hhead

/-- It leaves the others. -/
theorem queueGet_lists (h : q.Lists l) : (queueGet q).2.Lists l.tail := by
  unfold queueGet
  cases l with
  | nil =>
    have hb : q.bottom = none := h.follows
    rw [hb]
    exact h
  | cons e l =>
    obtain ⟨hb, hrest⟩ := h.follows
    have hsize : q.size - 1 = l.length := by
      rw [h.size_eq, List.length_cons, Nat.add_sub_cancel]
    rw [hb]
    dsimp only
    cases l with
    | nil =>
      have ht : q.prev e = none := hrest
      rw [if_pos ht]
      exact ⟨hrest, rfl, hsize⟩
    | cons x l =>
      have ht : q.prev e = some x := hrest.1
      rw [if_neg (by simp [ht])]
      refine ⟨hrest, ?_, hsize⟩
      have htop := h.top_eq
      rwa [List.getLast?_cons_cons] at htop

end

/-! ## Threads on one queue -/

/-- The operations on a queue. -/
structure QueueFns (ρ : Type) where
  put : Queue ρ → ρ → Queue ρ
  cas : Queue ρ → ρ → Queue ρ
  get : Queue ρ → Option ρ × Queue ρ
  isempty : Queue ρ → Bool

/-- The queue of the server. -/
def queueFns [DecidableEq ρ] : QueueFns ρ := ⟨queuePut, queueCas, queueGet, queueIsempty⟩

/-- The callback queue of the client. -/
def msqueueFns [DecidableEq ρ] : QueueFns ρ := ⟨msqueuePut, msqueueCas, msqueueGet, msqueueIsempty⟩

/-- What the holder of the lock does with the queue. -/
inductive QueueOp (ρ : Type) where
  | put (e : ρ)
  | cas (e : ρ)
  | get

/-- A step of the thread `t`. The wait on the condition releases the lock and takes it again. -/
inductive QueueAct (τ ρ : Type) where
  | lock (t : τ)
  | unlock (t : τ)
  | op (t : τ) (o : QueueOp ρ)

/-- A queue in use: the holder of its lock, the list it stands for, and the entries put in and taken
out so far. -/
structure QueueUse (τ ρ : Type) where
  lock : Option τ
  q : Queue ρ
  waiting : List ρ
  inserted : List ρ
  taken : List ρ

/-- A new queue. -/
def QueueUse.new (prev : ρ → Option ρ) : QueueUse τ ρ := ⟨none, queueCreate prev, [], [], []⟩

/-- An operation, on the queue and on the list. -/
def QueueUse.apply (F : QueueFns ρ) (s : QueueUse τ ρ) : QueueOp ρ → QueueUse τ ρ
  | .put e => { s with
      q := F.put s.q e, waiting := s.waiting ++ [e], inserted := s.inserted ++ [e] }
  | .cas e => { s with q := F.cas s.q e, waiting := e :: s.waiting, inserted := s.inserted ++ [e] }
  | .get => { s with
      q := (F.get s.q).2, waiting := s.waiting.tail, taken := s.taken ++ (F.get s.q).1.toList }

/-- One step. A thread waits for the lock, and operates only while it holds it. -/
def QueueUse.next [DecidableEq τ] (F : QueueFns ρ) (s : QueueUse τ ρ) :
    QueueAct τ ρ → QueueUse τ ρ
  | .lock t => if s.lock = none then { s with lock := some t } else s
  | .unlock t => if s.lock = some t then { s with lock := none } else s
  | .op t o => if s.lock = some t then s.apply F o else s

/-- An entry that is put in has a NULL `prev` and is not in the queue, as its thread has just created
it. -/
def QueueUse.Fresh (s : QueueUse τ ρ) : QueueAct τ ρ → Prop
  | .op t (.put e) => s.lock = some t → s.q.prev e = none ∧ e ∉ s.waiting
  | .op t (.cas e) => s.lock = some t → s.q.prev e = none ∧ e ∉ s.waiting
  | _ => True

instance [DecidableEq ρ] [DecidableEq τ] (s : QueueUse τ ρ) :
    (a : QueueAct τ ρ) → Decidable (s.Fresh a)
  | .lock _ => .isTrue trivial
  | .unlock _ => .isTrue trivial
  | .op _ (.put _) => inferInstanceAs (Decidable (_ → _ ∧ _))
  | .op _ (.cas _) => inferInstanceAs (Decidable (_ → _ ∧ _))
  | .op _ .get => .isTrue trivial

/-- The queue is exactly its list: `prev` leads from `bottom` over the list to `top`, `size` is its
length, the answers of the operations are those of the list, and every entry put in has been taken
out once or waits. -/
structure QueueUse.Exact [DecidableEq ρ] (F : QueueFns ρ) (s : QueueUse τ ρ) : Prop where
  lists : s.q.Lists s.waiting
  isempty_iff : F.isempty s.q = true ↔ s.waiting = []
  get_fst : (F.get s.q).1 = s.waiting.head?
  once : ∀ e, s.inserted.count e = s.taken.count e + s.waiting.count e

section
variable [DecidableEq ρ]

theorem QueueUse.exact_of_lists {s : QueueUse τ ρ} (hlists : s.q.Lists s.waiting)
    (honce : ∀ e, s.inserted.count e = s.taken.count e + s.waiting.count e) :
    s.Exact queueFns :=
  ⟨hlists, queueIsempty_iff hlists, queueGet_fst hlists, honce⟩

theorem QueueUse.new_exact (prev : ρ → Option ρ) :
    (QueueUse.new prev : QueueUse τ ρ).Exact queueFns :=
  QueueUse.exact_of_lists (queueCreate_lists prev) (by simp [QueueUse.new])

variable [DecidableEq τ]

/-- A step keeps the queue and its list together. -/
theorem QueueUse.Exact.next {s : QueueUse τ ρ} (h : s.Exact queueFns) {a : QueueAct τ ρ}
    (ha : s.Fresh a) : (s.next queueFns a).Exact queueFns := by
  cases a with
  | lock t =>
    simp only [QueueUse.next]
    split_ifs
    · exact QueueUse.exact_of_lists h.lists h.once
    · exact h
  | unlock t =>
    simp only [QueueUse.next]
    split_ifs
    · exact QueueUse.exact_of_lists h.lists h.once
    · exact h
  | op t o =>
    simp only [QueueUse.next]
    split_ifs with hlock
    · cases o with
      | put e =>
        obtain ⟨hprev, he⟩ := ha hlock
        refine QueueUse.exact_of_lists (queuePut_lists h.lists hprev he) fun x => ?_
        have honce := h.once x
        simp only [QueueUse.apply, List.count_append]
        omega
      | cas e =>
        obtain ⟨hprev, he⟩ := ha hlock
        refine QueueUse.exact_of_lists (queueCas_lists h.lists hprev he) fun x => ?_
        have honce := h.once x
        simp only [QueueUse.apply, List.count_append, List.count_cons, List.count_nil]
        omega
      | get =>
        refine QueueUse.exact_of_lists (queueGet_lists h.lists) fun x => ?_
        have honce := h.once x
        have hget : (queueGet s.q).1 = s.waiting.head? := h.get_fst
        simp only [QueueUse.apply, queueFns, hget, List.count_append]
        cases hw : s.waiting with
        | nil => simpa [hw] using honce
        | cons y ys =>
          rw [hw, List.count_cons] at honce
          simp only [List.head?_cons, Option.toList_some, List.count_singleton, List.tail_cons]
          omega
    · exact h

/-- In every run of threads on the server's queue and on the client's callback queue, whose entries
are new when they are put in, the queue is exactly its list in every state. -/
theorem queues_exact (prev : ρ → Option ρ) (acts : List (QueueAct τ ρ)) :
    (EachStep (QueueUse.next queueFns) QueueUse.Fresh (QueueUse.new prev) acts →
        Always (QueueUse.next queueFns) (QueueUse.Exact queueFns) (QueueUse.new prev) acts) ∧
      (EachStep (QueueUse.next msqueueFns) QueueUse.Fresh (QueueUse.new prev) acts →
        Always (QueueUse.next msqueueFns) (QueueUse.Exact msqueueFns) (QueueUse.new prev) acts) := by
  have hrun : EachStep (QueueUse.next queueFns) QueueUse.Fresh (QueueUse.new prev) acts →
      Always (QueueUse.next queueFns) (QueueUse.Exact queueFns) (QueueUse.new prev) acts := by
    intro hfresh
    refine always_of_eachStep (fun s h => h) (fun s a h ha => ?_) (QueueUse.new_exact prev) hfresh
    exact QueueUse.Exact.next h ha
  -- The client's functions are the same code.
  have hsame : (msqueueFns : QueueFns ρ) = queueFns := rfl
  rw [hsame]
  exact ⟨hrun, hrun⟩

end

/-- One thread puts in entry 1, and entry 2 in front of it, while the other waits for the lock and then
takes out both and finds the queue empty. -/
def sampleActs : List (QueueAct Bool ℕ) :=
  [.lock false, .op false (.put 1), .lock true, .op false (.cas 2), .unlock false, .lock true,
    .op true .get, .op true .get, .op true .get, .unlock true]

theorem queues_exact_sampleActs :
    Always (QueueUse.next queueFns) (QueueUse.Exact queueFns) (.new fun _ => none) sampleActs ∧
      Always (QueueUse.next msqueueFns) (QueueUse.Exact msqueueFns) (.new fun _ => none)
        sampleActs ∧
      (sampleActs.foldl (QueueUse.next queueFns) (.new fun _ => none)).taken = [2, 1] := by
  obtain ⟨hserver, hclient⟩ := queues_exact (fun _ => none) sampleActs
  exact ⟨hserver (by decide), hclient (by decide), by decide⟩

end Moc
