import Blubos.Bitstruct.Layout
import Blubos.Foundation.Parsing

/-!
# The input of `bitstruct!`

The macro is given a list of token trees.  It expands exactly the texts of declarations, in which
commas may be left out, and the layout that it generates is that of the declaration with its ranges
as they are written.  What single tokens, visibilities and types are is up to the library `syn`,
whose parsers are a parameter.
-/

namespace Blubos

namespace Bitstruct

/-- What a group stands in. -/
inductive Delimiter where
  | parenthesis | brace | bracket
deriving DecidableEq

/-- `TokenTree`.  A mark is joint when another one follows it at once. -/
inductive TokenTree where
  | ident (name : String)
  | punct (char : Char) (joint : Bool)
  | literal (text : String)
  | group (delimiter : Delimiter) (stream : List TokenTree)

/-- Why the macro does not expand. -/
inductive MacroFailure where
  | rejected
  /-- The macro panics, in a build with overflow checks. -/
  | panicked (fault : Fault)
deriving DecidableEq

abbrev SynParser (α : Type) := Parser TokenTree MacroFailure α

namespace Input

/-- `BitField`. -/
structure BitField (Vis Ty : Type) where
  vis : Vis
  name : String
  ty : Ty
  range : Option (ℕ × ℕ)

/-- `BitStruct`. -/
structure BitStruct (Vis Ty : Type) where
  name : String
  fields : List (BitField Vis Ty)

/-! ## The library -/

inductive Mark where
  | colon | equals | comma

def Mark.char : Mark → Char
  | .colon => ':'
  | .equals => '='
  | .comma => ','

/-- What the macro uses of `syn`. -/
structure Syn (Vis Ty : Type) where
  /-- `Token![struct]`. -/
  structToken : SynParser Unit
  /-- `Ident`. -/
  ident : SynParser String
  /-- `Visibility`. -/
  visibility : SynParser Vis
  /-- `Type`. -/
  type : SynParser Ty
  /-- The last segment of a type that is a path. -/
  lastSegment : Ty → Option String
  /-- `Token![:]`, `Token![=]` and `Token![,]`. -/
  mark : Mark → SynParser Unit
  /-- `peek` for these. -/
  peekMark : Mark → List TokenTree → Bool
  /-- `Token![..]`. -/
  dots : SynParser Unit
  /-- `peek(Token![..])`. -/
  peekDots : List TokenTree → Bool
  /-- `LitInt` and `base10_parse::<u32>`. -/
  base10Parse : SynParser ℕ
  /-- `lookahead1().peek(LitInt)`. -/
  peekLitInt : List TokenTree → Bool
  /-- `braced!`: the tokens between the braces. -/
  braced : SynParser (List TokenTree)
  /-- `parse_macro_input!`. -/
  parseMacroInput : SynParser (BitStruct Vis Ty) → List TokenTree →
    Except MacroFailure (BitStruct Vis Ty)

/-- The language as far as `syn` knows it: which identifiers are no keywords, the integers that
literals denote, and the texts of visibilities and types with their meanings. -/
structure Grammar (Vis Ty : Type) where
  IsName : String → Prop
  intValue : String → Option ℕ
  VisSyntax : Type
  visText : VisSyntax → List TokenTree
  vis : VisSyntax → Vis
  TypeSyntax : Type
  typeText : TypeSyntax → List TokenTree
  type : TypeSyntax → Ty

section Grammar

variable {Vis Ty : Type}

def Grammar.Name (grammar : Grammar Vis Ty) : Type := { name : String // grammar.IsName name }

/-- A literal for an integer that fits in `u32`. -/
structure Grammar.Literal (grammar : Grammar Vis Ty) where
  text : String
  value : ℕ
  denotes : grammar.intValue text = some value
  fits : value ≤ U32.max

/-- What may follow a visibility: a name. -/
def Grammar.BeginsName (grammar : Grammar Vis Ty) (rest : List TokenTree) : Prop :=
  ∃ name : grammar.Name, ∃ more, rest = .ident name.val :: more

/-- What may follow a field: another field or nothing. -/
def EndsField (rest : List TokenTree) : Prop := rest = [] ∨ ∃ name more, rest = .ident name :: more

/-- What may follow a type: besides, a range or a comma. -/
def EndsType (rest : List TokenTree) : Prop :=
  EndsField rest ∨ ∃ mark : Mark, mark ≠ .colon ∧ ∃ joint more, rest = .punct mark.char joint :: more

/-- What `syn` documents: its parsers read the texts of the language and nothing else, and a look
ahead sees whether a text begins. -/
structure Syn.Documented (syn : Syn Vis Ty) (grammar : Grammar Vis Ty) : Prop where
  structToken : Reads syn.structToken (fun _ : Unit => [.ident "struct"]) (fun _ => ()) fun _ => True
  ident : Reads syn.ident (fun name : grammar.Name => [.ident name.val]) Subtype.val fun _ => True
  visibility : Reads syn.visibility grammar.visText grammar.vis grammar.BeginsName
  /-- A visibility is missing or begins with a keyword. -/
  visibility_opens (vis : grammar.VisSyntax) :
    grammar.visText vis = [] ∨ ∃ name more, grammar.visText vis = .ident name :: more
  type : Reads syn.type grammar.typeText grammar.type EndsType
  mark (mark : Mark) :
    Reads (syn.mark mark) (fun joint => [.punct mark.char joint]) (fun _ => ()) fun _ => True
  peekMark (mark : Mark) (input : List TokenTree) :
    syn.peekMark mark input = true ↔ ∃ joint rest, input = .punct mark.char joint :: rest
  dots : Reads syn.dots (fun joint => [.punct '.' true, .punct '.' joint]) (fun _ => ()) fun _ => True
  peekDots (input : List TokenTree) :
    syn.peekDots input = true ↔ ∃ joint rest, input = .punct '.' true :: .punct '.' joint :: rest
  base10Parse : Reads syn.base10Parse (fun literal : grammar.Literal => [.literal literal.text])
    Grammar.Literal.value fun _ => True
  peekLitInt (literal : grammar.Literal) (rest : List TokenTree) :
    syn.peekLitInt (.literal literal.text :: rest) = true
  braced : Reads syn.braced (fun content => [.group .brace content]) id fun _ => True
  parseMacroInput (parser : SynParser (BitStruct Vis Ty)) (input : List TokenTree)
    (parsed : BitStruct Vis Ty) :
    syn.parseMacroInput parser input = .ok parsed ↔ parser input = .ok (parsed, [])

end Grammar

/-- The bounds of a range, as the tokens are left. -/
def evaluate (range : RangeExpr) : SynParser (ℕ × ℕ) := fun input =>
  match Bitstruct.parseRangeExpr range with
  | .ok bounds => .ok (bounds, input)
  | .error fault => .error (.panicked fault)

section Parse

variable {Vis Ty : Type} (syn : Syn Vis Ty)

/-- `parse_range_expr`. -/
def parseRangeExpr : SynParser (ℕ × ℕ) :=
  .branch syn.peekLitInt
    (do
      let startVal ← syn.base10Parse
      .branch syn.peekDots
        (do
          syn.dots
          .branch (syn.peekMark .equals)
            (do
              syn.mark .equals
              let endVal ← syn.base10Parse
              evaluate (.inclusive startVal endVal))
            (do
              let endVal ← syn.base10Parse
              evaluate (.exclusive startVal endVal)))
        (evaluate (.single startVal)))
    fun _ => .error .rejected

/-- The body of the loop of `BitStruct::parse`. -/
def parseField : SynParser (BitField Vis Ty) := do
  let vis ← syn.visibility
  let name ← syn.ident
  syn.mark .colon
  let ty ← syn.type
  let range ← .optional (syn.peekMark .equals) do
    syn.mark .equals
    parseRangeExpr syn
  let _ ← .optional (syn.peekMark .comma) (syn.mark .comma)
  return ⟨vis, name, ty, range⟩

/-- `BitStruct::parse`. -/
def parseBitStruct : SynParser (BitStruct Vis Ty) := do
  syn.structToken
  let name ← syn.ident
  let content ← syn.braced
  let fields ← Parser.within (Parser.toEnd (parseField syn) .rejected) content
  return ⟨name, fields⟩

end Parse

/-! ## Texts of declarations -/

section Text

variable {Vis Ty : Type}

/-- The text of a range; a flag says whether a mark is joint. -/
inductive RangeSyntax (grammar : Grammar Vis Ty) where
  | single (bit : grammar.Literal)
  | inclusive (startBit : grammar.Literal) (dots equals : Bool) (endBit : grammar.Literal)
  /-- The end is one past the last bit. -/
  | exclusive (startBit : grammar.Literal) (dots : Bool)
      (endBit : { bit : grammar.Literal // 0 < bit.value })

/-- The text of a field, whose range and comma can be missing. -/
structure FieldSyntax (grammar : Grammar Vis Ty) where
  vis : grammar.VisSyntax
  name : grammar.Name
  colon : Bool
  ty : grammar.TypeSyntax
  range : Option (Bool × RangeSyntax grammar)
  comma : Option Bool

structure StructSyntax (grammar : Grammar Vis Ty) where
  name : grammar.Name
  fields : List (FieldSyntax grammar)

variable {grammar : Grammar Vis Ty}

namespace RangeSyntax

def text : RangeSyntax grammar → List TokenTree
  | single bit => [.literal bit.text]
  | inclusive startBit dots equals endBit =>
      [.literal startBit.text, .punct '.' true, .punct '.' dots, .punct '=' equals,
        .literal endBit.text]
  | exclusive startBit dots endBit =>
      [.literal startBit.text, .punct '.' true, .punct '.' dots, .literal endBit.val.text]

def expr : RangeSyntax grammar → RangeExpr
  | single bit => .single bit.value
  | inclusive startBit _ _ endBit => .inclusive startBit.value endBit.value
  | exclusive startBit _ endBit => .exclusive startBit.value endBit.val.value

def bounds : RangeSyntax grammar → ℕ × ℕ
  | single bit => (bit.value, bit.value)
  | inclusive startBit _ _ endBit => (startBit.value, endBit.value)
  | exclusive startBit _ endBit => (startBit.value, endBit.val.value - 1)

theorem parseRangeExpr_expr (range : RangeSyntax grammar) :
    Bitstruct.parseRangeExpr range.expr = .ok range.bounds := by
  cases range with
  | single bit => rfl
  | inclusive startBit dots equals endBit => rfl
  | exclusive startBit dots endBit =>
      rw [expr, Bitstruct.parseRangeExpr, U32.sub_of_le endBit.property]
      rfl

end RangeSyntax

def FieldSyntax.text (field : FieldSyntax grammar) : List TokenTree :=
  grammar.visText field.vis ++ ([.ident field.name.val] ++ ([.punct ':' field.colon] ++
    (grammar.typeText field.ty ++
      ((field.range.map fun range => [.punct '=' range.1] ++ range.2.text).getD [] ++
        (field.comma.map fun comma => [.punct ',' comma]).getD []))))

def FieldSyntax.parsed (field : FieldSyntax grammar) : BitField Vis Ty :=
  ⟨grammar.vis field.vis, field.name.val, grammar.type field.ty,
    field.range.map fun range => range.2.bounds⟩

def StructSyntax.text (declaration : StructSyntax grammar) : List TokenTree :=
  [.ident "struct"] ++ ([.ident declaration.name.val] ++
    [.group .brace (declaration.fields.flatMap FieldSyntax.text)])

def StructSyntax.parsed (declaration : StructSyntax grammar) : BitStruct Vis Ty :=
  ⟨declaration.name.val, declaration.fields.map FieldSyntax.parsed⟩

end Text

theorem reads_evaluate {range : RangeExpr} {bounds : ℕ × ℕ}
    (evaluates : Bitstruct.parseRangeExpr range = .ok bounds) :
    Reads (evaluate range) (fun _ : Unit => []) (fun _ => bounds) fun _ => True where
  complete _ _ _ := by
    rw [evaluate, evaluates]
    rfl
  sound := by
    intro input result rest returned
    rw [evaluate, evaluates] at returned
    obtain ⟨rfl, rfl⟩ := Prod.mk.inj (Except.ok.inj returned)
    exact ⟨(), rfl, rfl⟩

section Library

variable {Vis Ty : Type} {syn : Syn Vis Ty} {grammar : Grammar Vis Ty}

namespace Syn.Documented

theorem peekMark_of_eq (documented : syn.Documented grammar) (mark : Mark) (joint : Bool)
    (rest : List TokenTree) : syn.peekMark mark (.punct mark.char joint :: rest) = true :=
  (documented.peekMark _ _).mpr ⟨joint, rest, rfl⟩

theorem peekMark_of_ne (documented : syn.Documented grammar) {mark : Mark} {input : List TokenTree}
    (other : ∀ joint rest, input ≠ .punct mark.char joint :: rest) :
    syn.peekMark mark input = false := by
  rw [Bool.eq_false_iff, ne_eq, documented.peekMark]
  rintro ⟨joint, rest, same⟩
  exact other joint rest same

theorem peekDots_of_ne (documented : syn.Documented grammar) {input : List TokenTree}
    (other : ∀ rest, input ≠ .punct '.' true :: rest) : syn.peekDots input = false := by
  rw [Bool.eq_false_iff, ne_eq, documented.peekDots]
  rintro ⟨joint, rest, same⟩
  exact other _ same

theorem peekMark_of_ends (documented : syn.Documented grammar) (mark : Mark) {rest : List TokenTree}
    (ends : EndsField rest) : syn.peekMark mark rest = false := by
  refine documented.peekMark_of_ne fun joint more => ?_
  rcases ends with rfl | ⟨name, more, rfl⟩ <;> simp

theorem peekDots_of_ends (documented : syn.Documented grammar) {rest : List TokenTree}
    (ends : EndsField rest) : syn.peekDots rest = false := by
  refine documented.peekDots_of_ne fun more => ?_
  rcases ends with rfl | ⟨name, more, rfl⟩ <;> simp

/-- The end of an exclusive range is read where it is not zero. -/
theorem exclusive (documented : syn.Documented grammar) (startVal : ℕ) :
    Reads (do
        let endVal ← syn.base10Parse
        evaluate (.exclusive startVal endVal))
      (fun endBit : { bit : grammar.Literal // 0 < bit.value } => [.literal endBit.val.text])
      (fun endBit => (startVal, endBit.val.value - 1)) fun _ => True where
  complete := by
    intro endBit rest _
    have evaluates : Bitstruct.parseRangeExpr (.exclusive startVal endBit.val.value) =
        .ok (startVal, endBit.val.value - 1) := by
      rw [Bitstruct.parseRangeExpr, U32.sub_of_le endBit.property]
      rfl
    exact Parser.bind_eq_ok.mpr ⟨_, rest, documented.base10Parse.complete endBit.val rest trivial,
      (reads_evaluate evaluates).complete () rest trivial⟩
  sound := by
    intro input result rest returned
    obtain ⟨_, middle, first, second⟩ := Parser.bind_eq_ok.mp returned
    obtain ⟨endBit, rfl, rfl⟩ := documented.base10Parse.sound _ _ _ first
    rw [evaluate, Bitstruct.parseRangeExpr, U32.sub] at second
    by_cases positive : 1 ≤ endBit.value
    · rw [if_pos positive] at second
      obtain ⟨rfl, rfl⟩ := Prod.mk.inj (Except.ok.inj second)
      exact ⟨⟨endBit, positive⟩, rfl, rfl⟩
    · rw [if_neg positive] at second
      cases second

theorem parseRangeExpr (documented : syn.Documented grammar) :
    Reads (Input.parseRangeExpr syn) (@RangeSyntax.text _ _ grammar) RangeSyntax.bounds
      fun rest => syn.peekDots rest = false := by
  have inclusive (startVal : ℕ) := (documented.mark .equals).bind (fun _ =>
    documented.base10Parse.bind
      (fun endVal => @reads_evaluate (.inclusive startVal endVal) (startVal, endVal) rfl)
      fun _ _ _ => trivial) fun _ _ _ => trivial
  have ends (startVal : ℕ) := documented.dots.bind (fun _ => (inclusive startVal).branch
    (documented.exclusive startVal) (fun items _ => documented.peekMark_of_eq .equals items.1 _)
    fun _ _ _ => documented.peekMark_of_ne fun _ _ => by simp) fun _ _ _ => trivial
  have single (startVal : ℕ) := @reads_evaluate (.single startVal) (startVal, startVal) rfl
  refine ((documented.base10Parse.bind (fun startVal =>
    ((ends startVal).weaken fun _ _ => trivial).branch ((single startVal).weaken fun _ _ => trivial)
      (fun items _ => (documented.peekDots _).mpr ⟨items.1, _, rfl⟩) fun _ _ stops => stops)
    fun _ _ _ => trivial).guarded fun items _ => documented.peekLitInt items.1 _).rename
    (fun items => match items with
      | (startBit, .inl (dots, .inl (equals, endBit, _))) =>
          .inclusive startBit dots equals endBit
      | (startBit, .inl (dots, .inr endBit)) => .exclusive startBit dots endBit
      | (bit, .inr _) => .single bit) ?_ ?_ ?_
  · rintro (bit | ⟨startBit, dots, equals, endBit⟩ | ⟨startBit, dots, endBit⟩)
    · exact ⟨(bit, .inr ()), rfl⟩
    · exact ⟨(startBit, .inl (dots, .inl (equals, endBit, ()))), rfl⟩
    · exact ⟨(startBit, .inl (dots, .inr endBit)), rfl⟩
  · rintro ⟨startBit, ⟨dots, ⟨equals, endBit, _⟩ | endBit⟩ | _⟩ <;> rfl
  · rintro ⟨startBit, ⟨dots, ⟨equals, endBit, _⟩ | endBit⟩ | _⟩ <;> rfl

theorem parseField (documented : syn.Documented grammar) :
    Reads (Input.parseField syn) (@FieldSyntax.text _ _ grammar) FieldSyntax.parsed EndsField := by
  have comma := ((documented.mark .comma).weaken fun rest
      (_ : syn.peekMark .comma rest = false) => trivial)
    |>.optional (fun joint _ => documented.peekMark_of_eq .comma joint _) fun _ stops => stops
  have range := ((documented.mark .equals).bind (fun _ => documented.parseRangeExpr)
      fun _ _ _ => trivial)
    |>.weaken (fun rest (stops : syn.peekMark .equals rest = false ∧ syn.peekDots rest = false) =>
      stops.2)
    |>.optional (fun items _ => documented.peekMark_of_eq .equals items.1 _) fun _ stops => stops.1
  have ends (vis : Vis) (name : String) (ty : Ty) := range.bind (fun bounds => comma.bind
    (fun _ => (Reads.pure (BitField.mk vis name ty bounds)).weaken fun rest (_ : EndsField rest) =>
      trivial)
    fun _ _ ends => documented.peekMark_of_ends .comma ends)
    (by
      rintro ⟨_ | joint, _⟩ rest ends
      · exact ⟨documented.peekMark_of_ends .equals ends, documented.peekDots_of_ends ends⟩
      · exact ⟨documented.peekMark_of_ne fun _ _ => by simp [Mark.char],
          documented.peekDots_of_ne fun _ => by simp [Mark.char]⟩)
  refine ((documented.visibility.bind fun vis => documented.ident.bind (fun name =>
    (documented.mark .colon).bind (fun _ => documented.type.bind (fun ty => ends vis name ty) ?_)
    fun _ _ _ => trivial) fun _ _ _ => trivial) ?_).rename
    (fun (vis, name, colon, ty, range, joint, _) => ⟨vis, name, colon, ty, range, joint⟩) ?_ ?_ ?_
  · rintro ⟨_ | range, _ | joint, _⟩ rest ends
    · exact .inl ends
    · exact .inr ⟨.comma, by simp, joint, rest, rfl⟩
    · exact .inr ⟨.equals, by simp, range.1, _, rfl⟩
    · exact .inr ⟨.equals, by simp, range.1, _, rfl⟩
  · rintro ⟨name, _⟩ rest -
    exact ⟨name, _, rfl⟩
  · rintro ⟨vis, name, colon, ty, range, joint⟩
    exact ⟨(vis, name, colon, ty, range, joint, ()), rfl⟩
  · rintro ⟨vis, name, colon, ty, range, joint, _⟩
    simp only [FieldSyntax.text, List.append_nil]
    rfl
  · rintro ⟨vis, name, colon, ty, _ | range, joint, _⟩ <;> rfl

theorem field_begins (documented : syn.Documented grammar) (field : FieldSyntax grammar) :
    ∃ name more, field.text = .ident name :: more := by
  rcases documented.visibility_opens field.vis with none | ⟨name, more, visible⟩
  · exact ⟨field.name.val, _, by rw [FieldSyntax.text, none]; rfl⟩
  · exact ⟨name, _, by rw [FieldSyntax.text, visible]; rfl⟩

theorem parseBitStruct (documented : syn.Documented grammar) :
    Reads (Input.parseBitStruct syn) (@StructSyntax.text _ _ grammar) StructSyntax.parsed
      fun _ => True := by
  have fields : Reads (Parser.toEnd (Input.parseField syn) .rejected)
      (fun fields : List (FieldSyntax grammar) => fields.flatMap FieldSyntax.text)
      (fun fields => fields.map FieldSyntax.parsed) fun rest => rest = [] := by
    refine documented.parseField.toEnd (fun field => ?_) (.inl rfl) fun field rest => ?_
    · obtain ⟨name, more, begins⟩ := documented.field_begins field
      rw [begins]
      exact List.cons_ne_nil _ _
    · obtain ⟨name, more, begins⟩ := documented.field_begins field
      exact .inr ⟨name, _, by rw [begins]; rfl⟩
  have content := documented.braced.within fields fun _ _ _ => Parser.untilEmpty_rest
  have collected (name : String) :=
    content.bind (fun fields => Reads.pure (BitStruct.mk name fields)) fun _ _ _ => trivial
  have body := documented.structToken.bind (fun _ => documented.ident.bind collected
    fun _ _ _ => trivial) fun _ _ _ => trivial
  have same : Input.parseBitStruct syn = (do
      syn.structToken
      let name ← syn.ident
      let fields ← (do
        let content ← syn.braced
        Parser.within (Parser.toEnd (Input.parseField syn) .rejected) content)
      return ⟨name, fields⟩) := by
    simp only [Input.parseBitStruct, bind_assoc]
  rw [same]
  refine body.rename (fun (_, name, fields, _) => ⟨name, fields⟩) ?_ ?_ ?_
  · rintro ⟨name, fields⟩
    exact ⟨((), name, fields, ()), rfl⟩
  · rintro ⟨_, name, fields, _⟩
    rfl
  · rintro ⟨_, name, fields, _⟩
    rfl

end Syn.Documented

end Library

/-! ## Expansion -/

section Expansion

variable {Vis Ty : Type}

/-- `get_type_bit_size`. -/
def Syn.bitSize (syn : Syn Vis Ty) (ty : Ty) : ℕ := getTypeBitSize (syn.lastSegment ty)

/-- The field as the generator takes it. -/
def BitField.declared (field : BitField Vis Ty) : Bitstruct.BitField Ty :=
  ⟨field.ty, field.range.map fun bounds => .inclusive bounds.1 bounds.2⟩

/-- What the macro does with the code for a declaration. -/
def expansion (parsed : BitStruct Vis Ty) :
    Except Fault (Generated Ty) → Except MacroFailure (BitStruct Vis Ty × Generated Ty)
  | .error fault => .error (.panicked fault)
  | .ok generated => .ok (parsed, generated)

/-- `bitstruct!`: what it parsed, which names the accessors, and the layout of the structure. -/
def bitstruct (syn : Syn Vis Ty) (input : List TokenTree) :
    Except MacroFailure (BitStruct Vis Ty × Generated Ty) := do
  let parsed ← syn.parseMacroInput (parseBitStruct syn) input
  expansion parsed
    (generateBitstructCode syn.bitSize ⟨parsed.fields.map BitField.declared⟩)

variable {syn : Syn Vis Ty} {grammar : Grammar Vis Ty}

/-- The field that a text declares, with its range as written. -/
def FieldSyntax.declared (field : FieldSyntax grammar) : Bitstruct.BitField Ty :=
  ⟨grammar.type field.ty, field.range.map fun range => range.2.expr⟩

def StructSyntax.declared (declaration : StructSyntax grammar) : Bitstruct.BitStruct Ty :=
  ⟨declaration.fields.map FieldSyntax.declared⟩

/-- The bounds that were parsed are those of the range as written. -/
theorem FieldSyntax.bounds_declared (field : FieldSyntax grammar) (bitSize : Ty → ℕ)
    (currentBit : ℕ) :
    field.parsed.declared.bounds bitSize currentBit = field.declared.bounds bitSize currentBit := by
  obtain ⟨vis, name, colon, ty, _ | range, comma⟩ := field
  · rfl
  · exact range.2.parseRangeExpr_expr.symm

theorem StructSyntax.generate_declared (declaration : StructSyntax grammar) (bitSize : Ty → ℕ) :
    generateBitstructCode bitSize ⟨declaration.parsed.fields.map BitField.declared⟩ =
      generateBitstructCode bitSize declaration.declared := by
  have placed (fields : List (FieldSyntax grammar)) (currentBit : ℕ) :
      placeFields bitSize currentBit ((fields.map FieldSyntax.parsed).map BitField.declared) =
        placeFields bitSize currentBit (fields.map FieldSyntax.declared) := by
    induction fields generalizing currentBit with
    | nil => rfl
    | cons field fields induction =>
        simp only [List.map_cons, placeFields, field.bounds_declared, induction]
        rfl
  rw [generateBitstructCode, generateBitstructCode]
  exact congrArg (· >>= _) (placed declaration.fields 0)

theorem parseMacroInput_iff (documented : syn.Documented grammar)
    {input : List TokenTree} {parsed : BitStruct Vis Ty} :
    syn.parseMacroInput (parseBitStruct syn) input = .ok parsed ↔
      ∃ declaration : StructSyntax grammar, declaration.text = input ∧
        declaration.parsed = parsed := by
  rw [documented.parseMacroInput, ← @Parser.parseAll_eq_ok _ _ _ _ MacroFailure.rejected]
  exact documented.parseBitStruct.parseAll_iff trivial

/-- The text of a declaration expands to the code for the declaration. -/
theorem bitstruct_text (documented : syn.Documented grammar)
    (declaration : StructSyntax grammar) :
    bitstruct syn declaration.text =
      expansion declaration.parsed (generateBitstructCode syn.bitSize declaration.declared) := by
  have accepted := (parseMacroInput_iff documented).mpr ⟨declaration, rfl, rfl⟩
  rw [bitstruct, accepted, ← declaration.generate_declared]
  rfl

/-- Where the types of the fields are those with accessors, this is the layout of these. -/
theorem bitstruct_map (documented : syn.Documented grammar) {name : FieldType → Ty}
    (named : ∀ ty, syn.lastSegment (name ty) = some ty.name) (declaration : StructSyntax grammar)
    {bitstruct : Bitstruct.BitStruct FieldType} (types : declaration.declared = bitstruct.map name) :
    Input.bitstruct syn declaration.text =
      expansion declaration.parsed
        ((generateBitstructCode FieldType.bitSize bitstruct).map (Generated.map name)) := by
  have sizes (ty : FieldType) : syn.bitSize (name ty) = ty.bitSize := by
    rw [Syn.bitSize, named, ty.getTypeBitSize_name]
  rw [bitstruct_text documented, types, generateBitstructCode_map sizes]

end Expansion

def decimal (text : String) : Option ℕ :=
  text.toList.foldlM (fun value digit =>
    if digit.isDigit then some (10 * value + (digit.toNat - '0'.toNat)) else none) 0

end Input

end Bitstruct

end Blubos
