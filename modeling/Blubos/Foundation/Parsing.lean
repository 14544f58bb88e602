import Mathlib.Data.List.Basic

/-!
# Parsers that read exactly the texts of a syntax

A parser takes a value off the front of a list of tokens.  It reads a syntax when it returns the
value of every text of the syntax, provided that what follows cannot continue the text, and when
whatever it returns is the value of a text that it took.  The rules follow the shape of a parser:
sequence, alternative by the next token, and a loop to the end of the input.
-/

namespace Blubos

variable {Token Failure α β σ τ : Type}

abbrev Parser (Token Failure : Type) := StateT (List Token) (Except Failure)

/-- The parser reads the texts of a syntax in front of what may follow them. -/
structure Reads (parser : Parser Token Failure α) (text : σ → List Token) (value : σ → α)
    (follow : List Token → Prop) : Prop where
  /-- Every text is read to its end, whatever follows that may follow. -/
  complete : ∀ item rest, follow rest → parser (text item ++ rest) = .ok (value item, rest)
  /-- What is returned was read from a text. -/
  sound : ∀ input result rest, parser input = .ok (result, rest) →
    ∃ item, input = text item ++ rest ∧ value item = result

namespace Parser

theorem bind_eq_ok {first : Parser Token Failure α} {next : α → Parser Token Failure β}
    {input rest : List Token} {result : β} :
    (first >>= next) input = .ok (result, rest) ↔
      ∃ value middle, first input = .ok (value, middle) ∧
        next value middle = .ok (result, rest) := by
  change (first input >>= fun pair => next pair.1 pair.2) = _ ↔ _
  cases first input with
  | error failure =>
      constructor
      · rintro ⟨⟩
      · rintro ⟨_, _, ⟨⟩, -⟩
  | ok pair =>
      constructor
      · exact fun returned => ⟨pair.1, pair.2, rfl, returned⟩
      · rintro ⟨_, _, ⟨⟩, returned⟩
        exact returned

/-- Take one token, in which a value is seen. -/
def token (see : Token → Option α) (unexpected : Failure) : Parser Token Failure α
  | [] => .error unexpected
  | first :: rest =>
      match see first with
      | some value => .ok (value, rest)
      | none => .error unexpected

/-- Look at the input to choose between two parsers. -/
def branch (peek : List Token → Bool) (parser other : Parser Token Failure α) :
    Parser Token Failure α := fun input => if peek input then parser input else other input

/-- Parse something only where the input begins with it. -/
def optional (peek : List Token → Bool) (parser : Parser Token Failure α) :
    Parser Token Failure (Option α) :=
  branch peek (do return some (← parser)) (return none)

/-- Repeat a parser until the input is empty; the number bounds the repetitions. -/
def untilEmpty (parser : Parser Token Failure α) (stuck : Failure) :
    ℕ → Parser Token Failure (List α)
  | _, [] => .ok ([], [])
  | 0, _ :: _ => .error stuck
  | rounds + 1, first :: more =>
      (do
        let item ← parser
        let items ← untilEmpty parser stuck rounds
        return item :: items) (first :: more)

/-- Repeat a parser, each time on fewer tokens, to the end of the input. -/
def toEnd (parser : Parser Token Failure α) (stuck : Failure) : Parser Token Failure (List α) :=
  fun input => untilEmpty parser stuck input.length input

/-- Parse tokens that were taken out of the input. -/
def within (parser : Parser Token Failure α) (content : List Token) : Parser Token Failure α :=
  fun input => do
    let (result, _) ← parser content
    .ok (result, input)

/-- Parse an input of which nothing may be left over. -/
def parseAll (parser : Parser Token Failure α) (leftOver : Failure) (input : List Token) :
    Except Failure α :=
  match parser input with
  | .ok (result, []) => .ok result
  | .ok (_, _ :: _) => .error leftOver
  | .error failure => .error failure

theorem parseAll_eq_ok {parser : Parser Token Failure α} {leftOver : Failure} {input : List Token}
    {result : α} :
    parseAll parser leftOver input = .ok result ↔ parser input = .ok (result, []) := by
  unfold parseAll
  split
  · rename_i found returned
    rw [returned]
    constructor
    · rintro ⟨⟩
      rfl
    · rintro ⟨⟩
      rfl
  · rename_i found token tokens returned
    rw [returned]
    constructor <;> rintro ⟨⟩
  · rename_i failure returned
    rw [returned]
    constructor <;> rintro ⟨⟩

/-- A loop to the end of the input leaves nothing. -/
theorem untilEmpty_rest {parser : Parser Token Failure α} {stuck : Failure} {rounds : ℕ}
    {input rest : List Token} {results : List α}
    (returned : untilEmpty parser stuck rounds input = .ok (results, rest)) : rest = [] := by
  induction rounds generalizing input results with
  | zero =>
      cases input with
      | nil => exact (Prod.mk.inj (Except.ok.inj returned)).2.symm
      | cons token tokens => cases returned
  | succ rounds induction =>
      cases input with
      | nil => exact (Prod.mk.inj (Except.ok.inj returned)).2.symm
      | cons token tokens =>
          obtain ⟨_, _, -, more⟩ := bind_eq_ok.mp returned
          obtain ⟨_, last, repeated, collected⟩ := bind_eq_ok.mp more
          obtain ⟨-, rfl⟩ := Prod.mk.inj (Except.ok.inj collected)
          exact induction repeated

end Parser

namespace Reads

variable {text : σ → List Token} {value : σ → α} {follow : List Token → Prop}
  {parser : Parser Token Failure α}

theorem pure (result : α) :
    Reads (Pure.pure result : Parser Token Failure α) (fun _ : Unit => []) (fun _ => result)
      fun _ => True where
  complete _ _ _ := rfl
  sound := by
    rintro input _ _ ⟨⟩
    exact ⟨(), rfl, rfl⟩

/-- A value is seen exactly in the tokens of the syntax. -/
theorem token {see : Token → Option α} {unexpected : Failure} (name : σ → Token)
    (seen : ∀ item, see (name item) = some (value item))
    (named : ∀ first result, see first = some result → ∃ item, name item = first ∧
      value item = result) :
    Reads (Parser.token see unexpected) (fun item => [name item]) value fun _ => True where
  complete := by
    intro item rest _
    rw [List.singleton_append, Parser.token, seen]
  sound := by
    intro input result rest returned
    cases input with
    | nil => cases returned
    | cons first input =>
        rw [Parser.token] at returned
        cases found : see first with
        | none =>
            rw [found] at returned
            cases returned
        | some value =>
            rw [found] at returned
            obtain ⟨rfl, rfl⟩ := Prod.mk.inj (Except.ok.inj returned)
            obtain ⟨item, rfl, same⟩ := named first value found
            exact ⟨item, rfl, same⟩

/-- A parser and then one whose texts do not depend on what the first returned. -/
theorem bind (reads : Reads parser text value follow) {next : α → Parser Token Failure β}
    {textNext : τ → List Token} {valueNext : α → τ → β} {followNext : List Token → Prop}
    (readsNext : ∀ result, Reads (next result) textNext (valueNext result) followNext)
    (meets : ∀ item rest, followNext rest → follow (textNext item ++ rest)) :
    Reads (parser >>= next) (fun items : σ × τ => text items.1 ++ textNext items.2)
      (fun items => valueNext (value items.1) items.2) followNext where
  complete := by
    rintro ⟨item, nextItem⟩ rest follows
    refine Parser.bind_eq_ok.mpr ⟨value item, textNext nextItem ++ rest, ?_, ?_⟩
    · rw [List.append_assoc]
      exact reads.complete item _ (meets nextItem rest follows)
    · exact (readsNext _).complete nextItem rest follows
  sound := by
    intro input result rest returned
    obtain ⟨middleValue, middle, first, second⟩ := Parser.bind_eq_ok.mp returned
    obtain ⟨item, rfl, rfl⟩ := reads.sound _ _ _ first
    obtain ⟨nextItem, rfl, rfl⟩ := (readsNext _).sound _ _ _ second
    exact ⟨(item, nextItem), (List.append_assoc ..).symm, rfl⟩

/-- The same texts and values under other names, of which some old name stands for each. -/
theorem rename (reads : Reads parser text value follow) {text' : τ → List Token} {value' : τ → α}
    (name : σ → τ) (onto : Function.Surjective name) (texts : ∀ item, text' (name item) = text item)
    (values : ∀ item, value' (name item) = value item) : Reads parser text' value' follow where
  complete := by
    intro item rest follows
    obtain ⟨item, rfl⟩ := onto item
    rw [texts, values]
    exact reads.complete item rest follows
  sound := by
    intro input result rest returned
    obtain ⟨item, rfl, rfl⟩ := reads.sound _ _ _ returned
    exact ⟨name item, by rw [texts], values item⟩

theorem weaken (reads : Reads parser text value follow) {follow' : List Token → Prop}
    (narrower : ∀ rest, follow' rest → follow rest) : Reads parser text value follow' where
  complete item rest follows := reads.complete item rest (narrower rest follows)
  sound := reads.sound

/-- A choice by what only the texts of one side begin with. -/
theorem branch {other : Parser Token Failure α} {textOther : τ → List Token} {valueOther : τ → α}
    {peek : List Token → Bool} (reads : Reads parser text value follow)
    (readsOther : Reads other textOther valueOther follow)
    (peeked : ∀ item rest, peek (text item ++ rest) = true)
    (notPeeked : ∀ item rest, follow rest → peek (textOther item ++ rest) = false) :
    Reads (Parser.branch peek parser other) (Sum.elim text textOther) (Sum.elim value valueOther)
      follow where
  complete := by
    rintro (item | item) rest follows
    · rw [Parser.branch, Sum.elim_inl, if_pos (peeked item rest)]
      exact reads.complete item rest follows
    · have absent : ¬peek (textOther item ++ rest) = true := by
        rw [notPeeked item rest follows]
        exact Bool.false_ne_true
      rw [Parser.branch, Sum.elim_inr, if_neg absent]
      exact readsOther.complete item rest follows
  sound := by
    intro input result rest returned
    unfold Parser.branch at returned
    split_ifs at returned with first
    · obtain ⟨item, rfl, rfl⟩ := reads.sound _ _ _ returned
      exact ⟨.inl item, rfl, rfl⟩
    · obtain ⟨item, rfl, rfl⟩ := readsOther.sound _ _ _ returned
      exact ⟨.inr item, rfl, rfl⟩

/-- A parser that is only tried where its texts begin. -/
theorem guarded {peek : List Token → Bool} {unexpected : Failure}
    (reads : Reads parser text value follow)
    (peeked : ∀ item rest, peek (text item ++ rest) = true) :
    Reads (Parser.branch peek parser fun _ => .error unexpected) text value follow where
  complete item rest follows := by
    rw [Parser.branch, if_pos (peeked item rest)]
    exact reads.complete item rest follows
  sound := by
    intro input result rest returned
    unfold Parser.branch at returned
    split_ifs at returned
    exact reads.sound _ _ _ returned

/-- A text inside another one, which the inner parser reads to its end. -/
theorem within {outer : Parser Token Failure (List Token)} {wrap : List Token → List Token}
    {followOuter : List Token → Prop} (readsOuter : Reads outer wrap id followOuter)
    (reads : Reads parser text value fun rest => rest = [])
    (toEnd : ∀ input result rest, parser input = .ok (result, rest) → rest = []) :
    Reads (outer >>= Parser.within parser) (fun item => wrap (text item)) value followOuter where
  complete := by
    intro item rest follows
    have inner := reads.complete item [] rfl
    rw [List.append_nil] at inner
    refine Parser.bind_eq_ok.mpr ⟨text item, rest, readsOuter.complete _ _ follows, ?_⟩
    rw [Parser.within, inner]
    rfl
  sound := by
    intro input result rest returned
    obtain ⟨content, middle, first, second⟩ := Parser.bind_eq_ok.mp returned
    obtain ⟨_, rfl, rfl⟩ := readsOuter.sound _ _ _ first
    unfold Parser.within at second
    cases inner : parser _ with
    | error failure =>
        rw [inner] at second
        cases second
    | ok pair =>
        obtain ⟨found, left⟩ := pair
        rw [inner] at second
        obtain ⟨rfl, rfl⟩ := Prod.mk.inj (Except.ok.inj second)
        obtain rfl := toEnd _ _ _ inner
        obtain ⟨item, taken, rfl⟩ := reads.sound _ _ _ inner
        rw [List.append_nil] at taken
        exact ⟨item, by rw [← taken]; rfl, rfl⟩

theorem optional {peek : List Token → Bool} (reads : Reads parser text value follow)
    (peeked : ∀ item rest, peek (text item ++ rest) = true)
    (notPeeked : ∀ rest, follow rest → peek rest = false) :
    Reads (Parser.optional peek parser) (fun item : Option σ => (item.map text).getD [])
      (Option.map value) follow := by
  have returns (result : Option α) :
      Reads (return result : Parser Token Failure (Option α)) (fun _ : Unit => [])
        (fun _ => result) follow :=
    (pure result).weaken fun _ _ => trivial
  have present : Reads (do return some (← parser)) (fun items : σ × Unit => text items.1 ++ [])
      (fun items => some (value items.1)) follow :=
    reads.bind (fun result => returns (some result)) fun _ _ follows => follows
  refine (present.branch (returns none) (fun item rest => ?_) fun _ => notPeeked).rename
    (Sum.elim (fun items => .some items.1) fun _ => .none) ?_ ?_ ?_
  · rw [List.append_nil]
    exact peeked item.1 rest
  · rintro (_ | item)
    · exact ⟨.inr (), rfl⟩
    · exact ⟨.inl (item, ()), rfl⟩
  · rintro (items | _)
    · exact (List.append_nil _).symm
    · rfl
  · rintro (items | _) <;> rfl

variable {stuck : Failure}

/-- A loop reads texts one after the other, none of which is empty. -/
theorem untilEmpty_complete (reads : Reads parser text value follow)
    (nonempty : ∀ item, text item ≠ []) (last : follow [])
    (meets : ∀ item rest, follow (text item ++ rest)) (items : List σ) {rounds : ℕ}
    (enough : (items.flatMap text).length ≤ rounds) :
    Parser.untilEmpty parser stuck rounds (items.flatMap text) = .ok (items.map value, []) := by
  induction items generalizing rounds with
  | nil => cases rounds <;> rfl
  | cons item items induction =>
      have follows : follow (items.flatMap text) := by
        cases items with
        | nil => exact last
        | cons next items => exact meets next _
      have taken := reads.complete item _ follows
      rw [List.flatMap_cons] at enough ⊢
      obtain ⟨token, tokens, begins⟩ := List.exists_cons_of_ne_nil (nonempty item)
      rw [begins, List.cons_append, List.length_cons, List.length_append] at enough
      obtain ⟨rounds, rfl⟩ : ∃ fewer, rounds = fewer + 1 := ⟨rounds - 1, by omega⟩
      have continued := @induction rounds (by omega)
      rw [begins, List.cons_append, Parser.untilEmpty, ← List.cons_append, ← begins]
      refine Parser.bind_eq_ok.mpr ⟨_, _, taken, ?_⟩
      exact Parser.bind_eq_ok.mpr ⟨_, _, continued, rfl⟩

/-- A loop that returns has read texts to the end of the input. -/
theorem untilEmpty_sound (reads : Reads parser text value follow) {rounds : ℕ}
    {input rest : List Token} {results : List α}
    (returned : Parser.untilEmpty parser stuck rounds input = .ok (results, rest)) :
    ∃ items : List σ, input = items.flatMap text ∧ items.map value = results := by
  induction rounds generalizing input results with
  | zero =>
      cases input with
      | nil =>
          obtain ⟨rfl, -⟩ := Prod.mk.inj (Except.ok.inj returned)
          exact ⟨[], rfl, rfl⟩
      | cons token tokens => cases returned
  | succ rounds induction =>
      cases input with
      | nil =>
          obtain ⟨rfl, -⟩ := Prod.mk.inj (Except.ok.inj returned)
          exact ⟨[], rfl, rfl⟩
      | cons token tokens =>
          obtain ⟨result, middle, first, more⟩ := Parser.bind_eq_ok.mp returned
          obtain ⟨results, last, repeated, collected⟩ := Parser.bind_eq_ok.mp more
          obtain ⟨rfl, rfl⟩ := Prod.mk.inj (Except.ok.inj collected)
          obtain ⟨item, taken, rfl⟩ := reads.sound _ _ _ first
          obtain ⟨items, rfl, rfl⟩ := induction repeated
          exact ⟨item :: items, taken, rfl⟩

/-- A loop to the end of the input reads lists of texts. -/
theorem toEnd (reads : Reads parser text value follow) (nonempty : ∀ item, text item ≠ [])
    (last : follow []) (meets : ∀ item rest, follow (text item ++ rest)) :
    Reads (Parser.toEnd parser stuck) (fun items : List σ => items.flatMap text)
      (fun items => items.map value) fun rest => rest = [] where
  complete := by
    rintro items _ rfl
    rw [List.append_nil]
    exact reads.untilEmpty_complete nonempty last meets items (Nat.le_refl _)
  sound := by
    intro input results rest returned
    obtain rfl := Parser.untilEmpty_rest returned
    obtain ⟨items, rfl, rfl⟩ := reads.untilEmpty_sound returned
    exact ⟨items, (List.append_nil _).symm, rfl⟩

/-- A whole input is parsed exactly when it is a text. -/
theorem parseAll_iff (reads : Reads parser text value follow) (last : follow [])
    {leftOver : Failure} {input : List Token} {result : α} :
    Parser.parseAll parser leftOver input = .ok result ↔
      ∃ item, text item = input ∧ value item = result := by
  rw [Parser.parseAll_eq_ok]
  constructor
  · intro returned
    obtain ⟨item, taken, same⟩ := reads.sound _ _ _ returned
    exact ⟨item, by rw [taken, List.append_nil], same⟩
  · rintro ⟨item, rfl, rfl⟩
    have taken := reads.complete item [] last
    rwa [List.append_nil] at taken

end Reads

end Blubos
