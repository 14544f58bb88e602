import Mathlib.Data.List.Basic

/-!
# Loops that fill tables and iterators that empty them

A loop that fills a table of optional entries settles some of them with each pass and leaves the
others alone; after the loop, whatever its order, the entries of all passes are settled.  An
iterator is a state and a `next` that returns an item and the state to continue from; it yields the
items of repeated calls up to the first that returns none.
-/

namespace Blubos

section Fill

variable {State Index Item : Type*}

/-- The covered entries have been filled from a table, where that has an item, and no other entry
has changed. -/
def Settles (view : State → Index → Option Item) (table : Index → Option Item)
    (covered : Index → Prop) (before after : State) : Prop :=
  ∀ index, (covered index → view after index = (table index).or (view before index)) ∧
    (¬covered index → view after index = view before index)

namespace Settles

variable {view : State → Index → Option Item} {table : Index → Option Item}
  {covered covered' : Index → Prop} {before middle after : State}

theorem of_none (none : ∀ index, covered index → table index = .none) :
    Settles view table covered before before := fun index =>
  ⟨fun inside => by rw [none index inside, Option.none_or], fun _ => rfl⟩

/-- Storing the item that the table has for an entry settles this entry. -/
theorem of_store {index : Index} {item : Item} (listed : table index = some item)
    (stored : ∀ other, (other = index → view after other = some item) ∧
      (other ≠ index → view after other = view before other)) :
    Settles view table (fun other => other = index) before after := by
  refine fun other => ⟨?_, (stored other).2⟩
  rintro rfl
  rw [(stored other).1 rfl, listed, Option.some_or]

theorem trans (first : Settles view table covered before middle)
    (second : Settles view table covered' middle after) :
    Settles view table (fun index => covered index ∨ covered' index) before after := by
  intro index
  obtain ⟨filled, kept⟩ := first index
  obtain ⟨filled', kept'⟩ := second index
  by_cases inside : covered index <;> by_cases inside' : covered' index
  · have again : (table index).or ((table index).or (view before index)) =
        (table index).or (view before index) := by
      rw [← Option.or_assoc, Option.or_self]
    exact ⟨fun _ => by rw [filled' inside', filled inside, again], fun none => by tauto⟩
  · exact ⟨fun _ => by rw [kept' inside', filled inside], fun none => by tauto⟩
  · exact ⟨fun _ => by rw [filled' inside', kept inside], fun none => by tauto⟩
  · exact ⟨fun either => by tauto, fun _ => by rw [kept' inside', kept inside]⟩

theorem congr (settles : Settles view table covered before after)
    (same : ∀ index, covered' index ↔ covered index) :
    Settles view table covered' before after := fun index => by
  rw [same index]
  exact settles index

end Settles

theorem foldlM_settles {Key Error : Type*} {step : State → Key → Except Error State}
    {view : State → Index → Option Item} {table : Index → Option Item}
    {covers : Key → Index → Prop} (keys : List Key)
    (settles : ∀ state, ∀ key ∈ keys, ∃ next, step state key = .ok next ∧
      Settles view table (covers key) state next)
    (state : State) :
    ∃ last, keys.foldlM step state = .ok last ∧
      Settles view table (fun index => ∃ key ∈ keys, covers key index) state last := by
  induction keys generalizing state with
  | nil => exact ⟨state, rfl, .of_none fun index inside => by simp at inside⟩
  | cons key keys induction =>
      obtain ⟨next, first, settled⟩ := settles state key List.mem_cons_self
      obtain ⟨last, rest, settledRest⟩ :=
        induction (fun state k member => settles state k (List.mem_cons_of_mem _ member)) next
      refine ⟨last, ?_, (settled.trans settledRest).congr fun index => by simp⟩
      rw [List.foldlM_cons, first]
      exact rest

/-- A call settles some entries, or else ends with an error that some condition rules out. -/
def Attempts {Error : Type*} (view : State → Index → Option Item) (table : Index → Option Item)
    (error : Error) (fits : Prop) (covered : Index → Prop) (before : State)
    (call : Except Error State) : Prop :=
  (∃ after, call = .ok after ∧ Settles view table covered before after) ∨
    call = .error error ∧ ¬fits

namespace Attempts

variable {Error : Type*} {view : State → Index → Option Item} {table : Index → Option Item}
  {error : Error} {fits fits' : Prop} {covered covered' : Index → Prop} {before : State}
  {call : Except Error State}

theorem done : Attempts view table error fits (fun _ => False) before (.ok before) :=
  .inl ⟨before, rfl, .of_none fun _ inside => inside.elim⟩

/-- A call that settles other names of the same entries, and needs no more. -/
theorem congr (attempts : Attempts view table error fits covered before call)
    (needs : fits' → fits) (same : ∀ index, covered' index ↔ covered index) :
    Attempts view table error fits' covered' before call := by
  rcases attempts with ⟨after, returned, settles⟩ | ⟨failed, excess⟩
  · exact .inl ⟨after, returned, settles.congr same⟩
  · exact .inr ⟨failed, fun holds => excess (needs holds)⟩

theorem bind {next : State → Except Error State}
    (first : Attempts view table error fits covered before call)
    (second : ∀ after, Attempts view table error fits' covered' after (next after)) :
    Attempts view table error (fits ∧ fits') (fun index => covered index ∨ covered' index) before
      (call >>= next) := by
  rcases first with ⟨middle, rfl, settles⟩ | ⟨rfl, excess⟩
  · rcases second middle with ⟨after, returned, settles'⟩ | ⟨failed, excess⟩
    · exact .inl ⟨after, returned, settles.trans settles'⟩
    · exact .inr ⟨failed, fun both => excess both.2⟩
  · exact .inr ⟨rfl, fun both => excess both.1⟩

theorem check {Value : Type _} {holds : Prop} [Decidable holds] {value : Value}
    {next : Value → Except Error State}
    (attempts : holds → Attempts view table error fits covered before (next value)) :
    Attempts view table error (holds ∧ fits) covered before
      ((if holds then .ok value else .error error) >>= next) := by
  by_cases valid : holds
  · rw [if_pos valid]
    exact (attempts valid).congr And.right fun _ => Iff.rfl
  · rw [if_neg valid]
    exact .inr ⟨rfl, fun both => valid both.1⟩

theorem foldlM {Key : Type*} {step : State → Key → Except Error State} {needs : Key → Prop}
    {covers : Key → Index → Prop} (keys : List Key)
    (steps : ∀ state, ∀ key ∈ keys,
      Attempts view table error (needs key) (covers key) state (step state key)) :
    Attempts view table error (∀ key ∈ keys, needs key)
      (fun index => ∃ key ∈ keys, covers key index) before (keys.foldlM step before) := by
  induction keys generalizing before with
  | nil =>
      refine (@done _ _ _ _ view table error _ before).congr id fun index => ?_
      simp
  | cons key keys induction =>
      rw [List.foldlM_cons]
      have later (state : State) (k : Key) (member : k ∈ keys) :
          Attempts view table error (needs k) (covers k) state (step state k) :=
        steps state k (List.mem_cons_of_mem _ member)
      refine ((steps before key List.mem_cons_self).bind fun after => induction later).congr ?_
        fun index => ?_
      · exact fun all => ⟨all key List.mem_cons_self,
          fun k member => all k (List.mem_cons_of_mem _ member)⟩
      · simp

end Attempts

end Fill

section Iterator

variable {State Item : Type*}

/-- The items that repeated calls of `next` return. -/
inductive Yields (next : State → Option Item × State) : State → List Item → Prop
  | done {state rest : State} : next state = (none, rest) → Yields next state []
  | item {state rest : State} {item : Item} {items : List Item} : next state = (some item, rest) →
      Yields next rest items → Yields next state (item :: items)

namespace Yields

variable {next : State → Option Item × State} {state : State}

/-- An iterator whose `next` always splits off the first item of what remains yields what
remains. -/
theorem of_remaining (remaining : State → List Item) (valid : State → Prop)
    (empties : ∀ state, valid state → (∃ rest, next state = (none, rest) ∧ remaining state = []) ∨
      ∃ item rest, next state = (some item, rest) ∧ valid rest ∧
        remaining state = item :: remaining rest)
    (begins : valid state) : Yields next state (remaining state) := by
  generalize left : remaining state = items
  induction items generalizing state with
  | nil =>
      rcases empties state begins with ⟨rest, returned, -⟩ | ⟨item, rest, -, -, more⟩
      · exact .done returned
      · simp [left] at more
  | cons item items induction =>
      rcases empties state begins with ⟨rest, -, none⟩ | ⟨item', rest, returned, continues, more⟩
      · simp [left] at none
      · obtain ⟨rfl, same⟩ := List.cons.inj (left.symm.trans more)
        exact .item returned (induction continues same.symm)

end Yields

end Iterator

end Blubos
