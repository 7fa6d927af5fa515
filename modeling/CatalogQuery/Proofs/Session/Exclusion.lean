import CatalogQuery.Session.Locks
import Mathlib.Data.List.Pairwise
import Mathlib.Tactic.ByContra

/-!
# Locks of records while callers come and go

Callers come for the locks of records, wait, give up and let go at the same time, and the steps of
what they do follow each other in any order. What is done to the map under its own lock is one step.
Main statement: at most one caller holds the lock of a record, an entry that somebody uses is never
dropped, a lock that nobody else asks for is had at once, and a caller who comes leaves only entries
in the map that somebody uses.

Nothing is asked of the order in which waiters are served, but that a mutex that is held is granted
to nobody else.
-/

namespace CatalogQuery.RecordLocks

/-! ## Tasks and their steps -/

/-- How far a caller has come. -/
inductive Task where
  /-- Wants the lock of a record. -/
  | comes (entity key : String)
  /-- Has a mutex from the map and waits for it. -/
  | waits (entity key : String) (m : RecordMutex)
  | holds (entity key : String) (m : RecordMutex)
  | gone
deriving DecidableEq, Repr

namespace Task

/-- Whether the task has not done anything yet. -/
def IsNew : Task → Prop
  | comes _ _ => True
  | _ => False

/-- The mutex that the task waits for. -/
def awaits? : Task → Option RecordMutex
  | waits _ _ m => some m
  | _ => none

/-- The mutex that the task holds. -/
def holds? : Task → Option RecordMutex
  | holds _ _ m => some m
  | _ => none

/-- The mutex that the task refers to. -/
def mutex? : Task → Option RecordMutex
  | waits _ _ m | holds _ _ m => some m
  | _ => none

/-- The record whose mutex the task refers to, by the text that tells records apart. -/
def record? : Task → Option String
  | waits entity key _ | holds entity key _ => some (recordName entity key)
  | _ => none

end Task

/-- What a task may do next. -/
inductive Move where
  | goOn
  /-- Wants the lock no longer. -/
  | giveUp
deriving DecidableEq, Repr

/-- The next step of a task. -/
def advance (l : RecordLocks) : Task → Move → RecordLocks × Task
  | .comes entity key, .goOn =>
    let (l, m) := l.enter entity key
    (l, .waits entity key m)
  | .comes _ _, .giveUp => (l, .gone)
  | .waits entity key m, .goOn =>
    match l.grant m with
    | some l => (l, .holds entity key m)
    | none => (l, .waits entity key m)
  | .waits _ _ m, .giveUp => (l.abandon m, .gone)
  | .holds _ _ m, _ => (l.release m, .gone)
  | .gone, _ => (l, .gone)

/-- Locks with the tasks of those who use them at the same time. -/
structure Shared where
  locks : RecordLocks
  tasks : List Task

namespace Shared

def start (tasks : List Task) : Shared := ⟨.empty, tasks⟩

/-- One of the tasks takes a step. -/
def step (s : Shared) (i : Nat) (move : Move) : Shared :=
  match s.tasks[i]? with
  | none => s
  | some task =>
    let (locks, task) := s.locks.advance task move
    ⟨locks, s.tasks.set i task⟩

/-- The tasks take steps in a given order. -/
def run (s : Shared) (order : List (Nat × Move)) : Shared :=
  order.foldl (fun s (i, move) => s.step i move) s

theorem step_eq {s : Shared} {i : Nat} {task : Task} (h : s.tasks[i]? = some task) (move : Move) :
    s.step i move =
      ⟨(s.locks.advance task move).1, s.tasks.set i (s.locks.advance task move).2⟩ := by
  rw [step, h]

theorem step_of_none {s : Shared} {i : Nat} (h : s.tasks[i]? = none) (move : Move) :
    s.step i move = s := by
  rw [step, h]

/-- A caller whom nobody disturbs takes two steps to acquire a lock. -/
theorem run_comes {l l' : RecordLocks} {entity key : String} {m : RecordMutex}
    (h : l.acquire entity key = (l', some m)) :
    (⟨l, [.comes entity key]⟩ : Shared).run [(0, .goOn), (0, .goOn)] =
      ⟨l', [.holds entity key m]⟩ := by
  rw [acquire] at h
  dsimp only at h
  split at h
  · rename_i hgrant
    cases h
    simp [run, step, advance, hgrant]
  · cases h

/-- A caller who does not get the lock at once and gives up has left no trace but its coming. -/
theorem run_comes_giveUp {l l' : RecordLocks} {entity key : String}
    (h : l.acquire entity key = (l', none)) :
    (⟨l, [.comes entity key]⟩ : Shared).run [(0, .goOn), (0, .goOn), (0, .giveUp)] =
      ⟨l', [.gone]⟩ := by
  rw [acquire] at h
  dsimp only at h
  split at h
  · cases h
  · rename_i hgrant
    cases h
    simp [run, step, advance, hgrant]

end Shared

/-! ## What every step keeps -/

/-- What is true at every moment: mutexes are counted once for each holder and each waiter, all that
are counted are in the map, the map has one mutex for a record, and no mutex is held twice. -/
structure Shared.Sound (s : Shared) : Prop where
  held : ∀ m, s.locks.held.count m = s.tasks.countP (·.holds? == some m)
  awaited : ∀ m, s.locks.awaited.count m = s.tasks.countP (·.awaits? == some m)
  named : ∀ task ∈ s.tasks, ∀ m, task.mutex? = some m → task.record? = some m.record
  present : ∀ m, s.locks.inUse m = true → m ∈ s.locks.entries
  single : s.locks.entries.Pairwise (·.record ≠ ·.record)
  alone : ∀ m, s.locks.held.count m ≤ 1

theorem inUse_iff {l : RecordLocks} {m : RecordMutex} :
    l.inUse m = true ↔ m ∈ l.held ∨ m ∈ l.awaited := by
  simp [inUse]

theorem mem_tidy {l : RecordLocks} {m : RecordMutex} :
    m ∈ l.tidy.entries ↔ m ∈ l.entries ∧ l.inUse m = true := List.mem_filter

theorem Task.mutex?_eq_some {task : Task} {m : RecordMutex} :
    task.mutex? = some m ↔ task.holds? = some m ∨ task.awaits? = some m := by
  cases task <;> simp [mutex?, holds?, awaits?]

/-- The record of a mutex that the map gives, whether it was there or is new. -/
theorem record_enter (l : RecordLocks) (entity key : String) :
    (l.enter entity key).2.record = recordName entity key := by
  rw [enter, mutexOf, entry?]
  cases h : l.tidy.entries.find? (·.record == recordName entity key) with
  | none => rfl
  | some m => simpa using List.find?_some h

/-- The map after a caller came: what was in use before, and the mutex that the caller got. -/
theorem mem_entries_enter {l : RecordLocks} {entity key : String} {m : RecordMutex} :
    m ∈ (l.enter entity key).1.entries ↔
      (m ∈ l.entries ∧ l.inUse m = true) ∨ m = (l.enter entity key).2 := by
  rw [← mem_tidy, enter, mutexOf, entry?]
  cases h : l.tidy.entries.find? (·.record == recordName entity key) with
  | none => simp [or_comm]
  | some n =>
    have hn := List.mem_of_find?_eq_some h
    constructor
    · exact .inl
    · rintro (hm | rfl)
      · exact hm
      · exact hn

theorem held_enter (l : RecordLocks) (entity key : String) :
    (l.enter entity key).1.held = l.held := by
  rw [enter, mutexOf]
  cases l.tidy.entry? (recordName entity key) <;> rfl

theorem awaited_enter (l : RecordLocks) (entity key : String) :
    (l.enter entity key).1.awaited = (l.enter entity key).2 :: l.awaited := by
  rw [enter, mutexOf]
  cases l.tidy.entry? (recordName entity key) <;> rfl

/-- A caller adds a mutex to the map only if there is none for its record. -/
theorem pairwise_enter {l : RecordLocks} (h : l.entries.Pairwise (·.record ≠ ·.record))
    (entity key : String) : (l.enter entity key).1.entries.Pairwise (·.record ≠ ·.record) := by
  have htidy : l.tidy.entries.Pairwise (·.record ≠ ·.record) := h.filter _
  rw [enter, mutexOf, entry?]
  cases hfind : l.tidy.entries.find? (·.record == recordName entity key) with
  | some m => exact htidy
  | none =>
    refine List.pairwise_cons.2 ⟨fun m hm heq => ?_, htidy⟩
    have hne := List.find?_eq_none.1 hfind m hm
    exact hne (beq_iff_eq.2 heq.symm)

/-- What is let go of once is counted once less. -/
theorem count_erase {ms : List RecordMutex} {m : RecordMutex} (h : m ∈ ms) (n : RecordMutex) :
    (ms.erase m).count n + (some m == some n).toNat = ms.count n := by
  rw [List.count_erase, Option.some_beq_some]
  by_cases hn : m = n
  · subst hn
    have hpos := List.count_pos_iff.2 h
    simp
    omega
  · simp [hn]

/-- A task that refers to a mutex holds it or waits for it. -/
theorem countP_mutex (tasks : List Task) (m : RecordMutex) :
    tasks.countP (·.mutex? == some m) =
      tasks.countP (·.holds? == some m) + tasks.countP (·.awaits? == some m) := by
  induction tasks with
  | nil => rfl
  | cons task rest ih =>
    rw [List.countP_cons, List.countP_cons, List.countP_cons, ih]
    cases task with
    | comes | gone => rfl
    | waits => exact Nat.add_assoc _ _ _
    | holds => exact Nat.add_right_comm _ _ _

theorem count_cons (m : RecordMutex) (ms : List RecordMutex) (n : RecordMutex) :
    (m :: ms).count n = ms.count n + (some m == some n).toNat := by
  rw [List.count_cons, Option.some_beq_some]
  by_cases hn : m = n <;> simp [hn]

namespace Shared.Sound

variable {s : Shared} {i j : Nat} {task task' : Task} {l : RecordLocks} {m : RecordMutex}

/-- What a count of tasks comes to when one of them goes on. -/
theorem countP_set (p : Task → Bool) (hi : s.tasks[i]? = some task) (task' : Task) :
    (s.tasks.set i task').countP p + (p task).toNat = s.tasks.countP p + (p task').toNat := by
  obtain ⟨hlt, rfl⟩ := List.getElem?_eq_some_iff.1 hi
  have hpos : p s.tasks[i] = true → 0 < s.tasks.countP p := fun h =>
    List.countP_pos_iff.2 ⟨_, List.getElem_mem hlt, h⟩
  rw [List.countP_set hlt]
  cases hold : p s.tasks[i] with
  | false => cases p task' <;> simp
  | true =>
    have := hpos hold
    cases p task' <;> simp <;> omega

theorem mem_held (h : s.Sound) (ht : task ∈ s.tasks) (hm : task.holds? = some m) :
    m ∈ s.locks.held := by
  rw [← List.count_pos_iff, h.held, List.countP_pos_iff]
  exact ⟨task, ht, beq_iff_eq.2 hm⟩

theorem mem_awaited (h : s.Sound) (ht : task ∈ s.tasks) (hm : task.awaits? = some m) :
    m ∈ s.locks.awaited := by
  rw [← List.count_pos_iff, h.awaited, List.countP_pos_iff]
  exact ⟨task, ht, beq_iff_eq.2 hm⟩

/-- A mutex is in use if some task refers to it. -/
theorem inUse_iff (h : s.Sound) :
    s.locks.inUse m = true ↔ ∃ task ∈ s.tasks, task.mutex? = some m := by
  rw [RecordLocks.inUse_iff, ← List.count_pos_iff, ← List.count_pos_iff, h.held, h.awaited,
    List.countP_pos_iff, List.countP_pos_iff]
  simp only [beq_iff_eq, Task.mutex?_eq_some]
  constructor
  · rintro (⟨task, ht, hm⟩ | ⟨task, ht, hm⟩)
    · exact ⟨task, ht, .inl hm⟩
    · exact ⟨task, ht, .inr hm⟩
  · rintro ⟨task, ht, hm | hm⟩
    · exact .inl ⟨task, ht, hm⟩
    · exact .inr ⟨task, ht, hm⟩

theorem mem_entries (h : s.Sound) (ht : task ∈ s.tasks) (hm : task.mutex? = some m) :
    m ∈ s.locks.entries := h.present m (h.inUse_iff.2 ⟨task, ht, hm⟩)

/-- Tasks that refer to mutexes of one record refer to the same one. -/
theorem mutex_eq (h : s.Sound) (ht : task ∈ s.tasks) (ht' : task' ∈ s.tasks) {m' : RecordMutex}
    (hm : task.mutex? = some m) (hm' : task'.mutex? = some m')
    (hrecord : task.record? = task'.record?) : m = m' := by
  rw [h.named task ht m hm, h.named task' ht' m' hm', Option.some.injEq] at hrecord
  have hsymm : Std.Symm fun a b : RecordMutex => a.record ≠ b.record := ⟨fun _ _ => Ne.symm⟩
  by_contra hne
  exact h.single.forall (h.mem_entries ht hm) (h.mem_entries ht' hm') hne hrecord

/-- A task goes on, and the counts with it. -/
theorem of_set (h : s.Sound) (hi : s.tasks[i]? = some task)
    (hheld : ∀ m, l.held.count m + (task.holds? == some m).toNat =
      s.locks.held.count m + (task'.holds? == some m).toNat)
    (hawaited : ∀ m, l.awaited.count m + (task.awaits? == some m).toNat =
      s.locks.awaited.count m + (task'.awaits? == some m).toNat)
    (hnamed : ∀ m, task'.mutex? = some m → task'.record? = some m.record)
    (hpresent : ∀ m, l.inUse m = true → m ∈ l.entries)
    (hsingle : l.entries.Pairwise (·.record ≠ ·.record)) (halone : ∀ m, l.held.count m ≤ 1) :
    Shared.Sound ⟨l, s.tasks.set i task'⟩ where
  held m := by
    have hset := countP_set (·.holds? == some m) hi task'
    have hcount := hheld m
    rw [h.held] at hcount
    show l.held.count m = (s.tasks.set i task').countP (·.holds? == some m)
    omega
  awaited m := by
    have hset := countP_set (·.awaits? == some m) hi task'
    have hcount := hawaited m
    rw [h.awaited] at hcount
    show l.awaited.count m = (s.tasks.set i task').countP (·.awaits? == some m)
    omega
  named other hother := by
    rcases List.mem_or_eq_of_mem_set hother with hother | rfl
    · exact h.named other hother
    · exact hnamed
  present := hpresent
  single := hsingle
  alone := halone

/-- A task that goes on and leaves the locks alone. -/
theorem of_same (h : s.Sound) (hi : s.tasks[i]? = some task) (hholds : task'.holds? = task.holds?)
    (hawaits : task'.awaits? = task.awaits?) (hnamed : ∀ m, task'.mutex? = some m →
      task'.record? = some m.record) : Shared.Sound ⟨s.locks, s.tasks.set i task'⟩ :=
  h.of_set hi (fun _ => by rw [hholds]) (fun _ => by rw [hawaits]) hnamed h.present h.single h.alone

theorem enter (h : s.Sound) {entity key : String} (hi : s.tasks[i]? = some (.comes entity key)) :
    Shared.Sound ⟨(s.locks.enter entity key).1,
      s.tasks.set i (.waits entity key (s.locks.enter entity key).2)⟩ := by
  have hrecord := record_enter s.locks entity key
  refine h.of_set hi (fun m => ?_) (fun m => ?_) ?_ (fun m hm => ?_) (pairwise_enter h.single ..) ?_
  · rw [held_enter]
    rfl
  · rw [awaited_enter, count_cons]
    rfl
  · rintro m ⟨⟩
    exact congrArg some hrecord.symm
  · -- What was in use was in the map and is kept there; what the caller got is in the map.
    rw [RecordLocks.inUse_iff, held_enter, awaited_enter, List.mem_cons] at hm
    rw [mem_entries_enter]
    have hkept (hm : s.locks.inUse m = true) : m ∈ s.locks.entries ∧ s.locks.inUse m = true :=
      ⟨h.present m hm, hm⟩
    rcases hm with hm | hm | hm
    · exact .inl (hkept (RecordLocks.inUse_iff.2 (.inl hm)))
    · exact .inr hm
    · exact .inl (hkept (RecordLocks.inUse_iff.2 (.inr hm)))
  · rw [held_enter]
    exact h.alone

theorem grant (h : s.Sound) {entity key : String} (hi : s.tasks[i]? = some (.waits entity key m))
    (hm : m ∉ s.locks.held) :
    Shared.Sound ⟨{ s.locks with held := m :: s.locks.held, awaited := s.locks.awaited.erase m },
      s.tasks.set i (.holds entity key m)⟩ := by
  have htask := List.mem_of_getElem? hi
  have hawaited := h.mem_awaited htask rfl
  refine h.of_set hi (fun n => ?_) (fun n => ?_) ?_ (fun n hn => h.present n ?_) h.single
    fun n => ?_
  · exact count_cons m s.locks.held n
  · exact count_erase hawaited n
  · rintro n ⟨⟩
    exact h.named _ htask m rfl
  · rw [RecordLocks.inUse_iff, List.mem_cons] at hn
    rw [RecordLocks.inUse_iff]
    rcases hn with (rfl | hn) | hn
    · exact .inr hawaited
    · exact .inl hn
    · exact .inr (List.mem_of_mem_erase hn)
  · have hcount := count_cons m s.locks.held n
    have halone := h.alone n
    by_cases hmn : m = n
    · subst hmn
      have hnone : s.locks.held.count m = 0 := List.count_eq_zero.2 hm
      simp only [List.count_cons_self]
      omega
    · rw [beq_false_of_ne (by simpa using hmn)] at hcount
      exact hcount ▸ halone

theorem abandon (h : s.Sound) {entity key : String}
    (hi : s.tasks[i]? = some (.waits entity key m)) :
    Shared.Sound ⟨s.locks.abandon m, s.tasks.set i .gone⟩ := by
  have hawaited := h.mem_awaited (List.mem_of_getElem? hi) rfl
  refine h.of_set hi (fun _ => rfl) (count_erase hawaited) (fun n hn => ?_)
    (fun n hn => h.present n ?_) h.single h.alone
  · cases hn
  · rw [RecordLocks.inUse_iff] at hn ⊢
    exact hn.imp_right List.mem_of_mem_erase

theorem release (h : s.Sound) {entity key : String}
    (hi : s.tasks[i]? = some (.holds entity key m)) :
    Shared.Sound ⟨s.locks.release m, s.tasks.set i .gone⟩ := by
  have hheld := h.mem_held (List.mem_of_getElem? hi) rfl
  refine h.of_set hi (count_erase hheld) (fun _ => rfl) (fun n hn => ?_)
    (fun n hn => h.present n ?_) h.single fun n => ?_
  · cases hn
  · rw [RecordLocks.inUse_iff] at hn ⊢
    exact hn.imp_left List.mem_of_mem_erase
  · exact Nat.le_trans (List.erase_sublist.count_le n) (h.alone n)

theorem step (h : s.Sound) (i : Nat) (move : Move) : (s.step i move).Sound := by
  cases hi : s.tasks[i]? with
  | none => rwa [step_of_none hi]
  | some task =>
    rw [step_eq hi]
    cases task with
    | comes entity key =>
      cases move with
      | goOn => exact h.enter hi
      | giveUp => exact h.of_same hi rfl rfl nofun
    | waits entity key m =>
      cases move with
      | goOn =>
        rw [advance, RecordLocks.grant]
        by_cases hm : m ∈ s.locks.held
        · rw [if_pos (List.contains_iff_mem.2 hm)]
          exact h.of_same hi rfl rfl (h.named _ (List.mem_of_getElem? hi))
        · rw [if_neg (fun hc => hm (List.contains_iff_mem.1 hc))]
          exact h.grant hi hm
      | giveUp => exact h.abandon hi
    | holds entity key m => exact h.release hi
    | gone => exact h.of_same hi rfl rfl nofun

theorem run (h : s.Sound) (order : List (Nat × Move)) : (s.run order).Sound := by
  induction order generalizing s with
  | nil => exact h
  | cons next rest ih => exact ih (h.step next.1 next.2)

theorem of_isNew {tasks : List Task} (h : ∀ task ∈ tasks, task.IsNew) : (start tasks).Sound := by
  have hnone (f : Task → Option RecordMutex) (hf : ∀ entity key, f (.comes entity key) = none)
      (m : RecordMutex) : tasks.countP (f · == some m) = 0 := by
    refine List.countP_eq_zero.2 fun task ht => ?_
    have hnew := h task ht
    cases task with
    | comes entity key => simp [hf]
    | waits | holds | gone => cases hnew
  refine ⟨fun m => (hnone _ (fun _ _ => rfl) m).symm, fun m => (hnone _ (fun _ _ => rfl) m).symm,
    fun task ht m hm => ?_, fun m hm => ?_, .nil, fun m => Nat.zero_le _⟩
  · have hnew := h task ht
    cases task with
    | comes entity key => cases hm
    | waits | holds | gone => cases hnew
  · simp [start, RecordLocks.empty, inUse] at hm

/-- No two tasks hold the same mutex. -/
theorem index_eq (h : s.Sound) (hi : s.tasks[i]? = some task) (hj : s.tasks[j]? = some task')
    (hm : task.holds? = some m) (hm' : task'.holds? = some m) : i = j := by
  by_contra hij
  -- Without the first of them the second one still counts.
  have hset : (s.tasks.set i .gone).countP (·.holds? == some m) + 1 =
      s.tasks.countP (·.holds? == some m) := by
    have h := countP_set (·.holds? == some m) hi .gone
    rw [hm, beq_self_eq_true] at h
    exact h
  have hother : 0 < (s.tasks.set i .gone).countP (·.holds? == some m) := by
    refine List.countP_pos_iff.2 ⟨task', List.mem_of_getElem? (i := j) ?_, beq_iff_eq.2 hm'⟩
    rw [List.getElem?_set_ne hij, hj]
  have halone := h.alone m
  rw [h.held] at halone
  omega

/-- A waiter gets the lock at the first try if nobody else refers to a mutex of the record. -/
theorem granted (h : s.Sound) {entity key : String}
    (hi : s.tasks[i]? = some (.waits entity key m))
    (hothers : ∀ j task, j ≠ i → s.tasks[j]? = some task →
      task.record? ≠ some (recordName entity key)) :
    (s.step i .goOn).tasks[i]? = some (.holds entity key m) := by
  have hnamed := h.named _ (List.mem_of_getElem? hi) m rfl
  have hm : m ∉ s.locks.held := by
    intro hm
    rw [← List.count_pos_iff, h.held, List.countP_pos_iff] at hm
    obtain ⟨task, ht, hm⟩ := hm
    obtain ⟨j, hj⟩ := List.mem_iff_getElem?.1 ht
    have hmutex := Task.mutex?_eq_some.2 (.inl (beq_iff_eq.1 hm))
    have hne : j ≠ i := by
      rintro rfl
      cases hi.symm.trans hj
      simp [Task.holds?] at hm
    exact hothers j task hne hj ((h.named task ht m hmutex).trans hnamed.symm)
  rw [step_eq hi, advance, RecordLocks.grant, if_neg (fun hc => hm (List.contains_iff_mem.1 hc))]
  exact List.getElem?_set_self (List.getElem?_eq_some_iff.1 hi).1

end Shared.Sound

/-- Callers come for the locks of records, wait, give up and let go in any order of their steps. At
every moment each mutex is counted once for each guard and each waiter, and:

* no two guards of one record are alive, and callers of one record refer to one mutex;
* a mutex with a guard or a waiter is in the map, and stays there when anybody else comes;
* a caller who comes while nobody refers to a mutex of the record has the lock at once, and so has a
  waiter as long as nobody else does;
* when a caller has come, every entry of the map has a guard or a waiter. -/
theorem record_locks_exclude {tasks : List Task} (htasks : ∀ task ∈ tasks, task.IsNew)
    (order : List (Nat × Move)) :
    let s := (Shared.start tasks).run order
    (∀ m, s.locks.held.count m + s.locks.awaited.count m = s.tasks.countP (·.mutex? == some m)) ∧
    (∀ (i j : Nat) entity key m m', s.tasks[i]? = some (.holds entity key m) →
      s.tasks[j]? = some (.holds entity key m') → i = j) ∧
    (∀ task ∈ s.tasks, ∀ task' ∈ s.tasks, ∀ m m', task.mutex? = some m → task'.mutex? = some m' →
      task.record? = task'.record? → m = m') ∧
    (∀ task ∈ s.tasks, ∀ m, task.mutex? = some m →
      m ∈ s.locks.entries ∧ ∀ entity key, m ∈ (s.locks.enter entity key).1.entries) ∧
    (∀ i entity key, s.tasks[i]? = some (.comes entity key) →
      (∀ task ∈ s.tasks, task.record? ≠ some (recordName entity key)) →
      ∃ m, ((s.step i .goOn).step i .goOn).tasks[i]? = some (.holds entity key m)) ∧
    (∀ i entity key m, s.tasks[i]? = some (.waits entity key m) →
      (∀ j task, j ≠ i → s.tasks[j]? = some task →
        task.record? ≠ some (recordName entity key)) →
      (s.step i .goOn).tasks[i]? = some (.holds entity key m)) ∧
    ∀ i entity key, s.tasks[i]? = some (.comes entity key) →
      ∀ m ∈ (s.step i .goOn).locks.entries,
        ∃ task ∈ (s.step i .goOn).tasks, task.mutex? = some m := by
  intro s
  have hs : s.Sound := (Shared.Sound.of_isNew htasks).run order
  refine ⟨fun m => ?_, ?_, ?_, ?_, ?_, fun i entity key m hi => hs.granted hi, ?_⟩
  · rw [hs.held, hs.awaited, countP_mutex]
  · intro i j entity key m m' hi hj
    have hti := List.mem_of_getElem? hi
    have htj := List.mem_of_getElem? hj
    obtain rfl := hs.mutex_eq hti htj rfl rfl rfl
    exact hs.index_eq hi hj rfl rfl
  · intro task ht task' ht' m m' hm hm' hrecord
    exact hs.mutex_eq ht ht' hm hm' hrecord
  · intro task ht m hm
    have hentry := hs.mem_entries ht hm
    exact ⟨hentry, fun entity key =>
      mem_entries_enter.2 (.inl ⟨hentry, hs.inUse_iff.2 ⟨task, ht, hm⟩⟩)⟩
  · -- The first step makes the caller a waiter, whom the second one lets in.
    intro i entity key hi hothers
    have hlt := (List.getElem?_eq_some_iff.1 hi).1
    refine ⟨(s.locks.enter entity key).2, (hs.step i .goOn).granted ?_ ?_⟩
    · rw [Shared.step_eq hi]
      exact List.getElem?_set_self hlt
    · intro j task hj htask
      rw [Shared.step_eq hi, List.getElem?_set_ne (Ne.symm hj)] at htask
      exact hothers task (List.mem_of_getElem? htask)
  · intro i entity key hi m hm
    have hs' := hs.enter hi
    rw [Shared.step_eq hi] at hm ⊢
    refine hs'.inUse_iff.1 (inUse_iff.2 ?_)
    rw [held_enter, awaited_enter, List.mem_cons]
    rcases mem_entries_enter.1 hm with ⟨-, hm⟩ | hm
    · exact (inUse_iff.1 hm).imp_right .inr
    · exact .inr (.inl hm)

/-- The holder of a lock has let go, and the one who waits for it has not got it yet, when a caller
comes for another record. -/
theorem record_locks_exclude_waiter :
    let m : RecordMutex := ⟨"note:a", 0⟩
    let tasks : List Task := [.comes "note" "a", .comes "note" "a", .comes "note" "b"]
    let s := (Shared.start tasks).run [(0, .goOn), (0, .goOn), (1, .goOn), (0, .goOn)]
    (∀ task ∈ tasks, task.IsNew) ∧ s.tasks = [.gone, .waits "note" "a" m, .comes "note" "b"] ∧
      m ∈ (s.locks.enter "note" "b").1.entries ∧
      (s.step 1 .goOn).tasks[1]? = some (.holds "note" "a" m) ∧
      ∃ n, ((s.step 2 .goOn).step 2 .goOn).tasks[2]? = some (.holds "note" "b" n) := by
  intro m tasks s
  have htasks : ∀ task ∈ tasks, task.IsNew := by simp [tasks, Task.IsNew]
  have hs : s.tasks = [.gone, .waits "note" "a" m, .comes "note" "b"] := by decide
  have hall := record_locks_exclude htasks [(0, .goOn), (0, .goOn), (1, .goOn), (0, .goOn)]
  have hrun : (Shared.start tasks).run [(0, .goOn), (0, .goOn), (1, .goOn), (0, .goOn)] = s := rfl
  rw [hrun] at hall
  obtain ⟨-, -, -, hkept, hcomes, hwaits, -⟩ := hall
  -- From here on it is enough to know the tasks.
  clear_value s
  refine ⟨htasks, hs, (hkept (.waits "note" "a" m) ?_ m rfl).2 "note" "b",
    hwaits 1 "note" "a" m ?_ ?_, hcomes 2 "note" "b" ?_ ?_⟩
  · exact hs ▸ by simp
  · exact hs ▸ rfl
  · intro j task hj htask
    rw [hs] at htask
    match j with
    | 0 | 2 =>
      cases htask
      decide
    | 1 => exact absurd rfl hj
    | _ + 3 => cases htask
  · exact hs ▸ rfl
  · rw [hs]
    decide

end CatalogQuery.RecordLocks
