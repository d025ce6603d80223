/-
  Memberwise/Proofs/Literals.lean
  ===============================
  **Literals are read back as they were built.**

  An expression that is built from literals has a text, and reading the text gives the
  expression back, with its shape and the shapes and texts of all that is in it.  Only the
  places are new.  This needs of numbers that they are tokens by themselves, and of strings
  that they keep to one line; whatever else a string holds is escaped.

  The text of an expression is cut into tokens from its end, since where a token ends
  depends on what comes behind it: in an array that is a comma or a bracket, and no token
  goes on over these.  Elements are read one after another with a limit on their number,
  for which the length of the text is enough.
-/
import Memberwise.Proofs.Breaks
import Memberwise.Proofs.Fragments
import Memberwise.Proofs.Rereading

namespace Memberwise

/-! ### Expressions without their places -/

mutual

/-- An expression without its place, and the same for all that is in it. -/
def Expr.unplaced : Expr → Expr
  | ⟨shape, text, _⟩ => ⟨Expr.Shape.unplaced shape, text, .nowhere⟩

def Expr.Shape.unplaced : Expr.Shape → Expr.Shape
  | .array elements => .array (Expr.allUnplaced elements)
  | shape => shape

def Expr.allUnplaced : List Expr → List Expr
  | [] => []
  | first :: rest => Expr.unplaced first :: Expr.allUnplaced rest

end

/-- The type that an expression shows does not depend on its place. -/
theorem Expr.literalType?_unplaced : ∀ value : Expr,
    value.unplaced.literalType? = value.literalType?
  | ⟨.array (first :: _), _, _⟩ => by
    simp only [unplaced, Shape.unplaced, allUnplaced, literalType?, shapeType?,
      literalType?_unplaced first]
  | ⟨.array [], _, _⟩ => rfl
  | ⟨.bool _, _, _⟩ => rfl
  | ⟨.integer, _, _⟩ => rfl
  | ⟨.float, _, _⟩ => rfl
  | ⟨.string, _, _⟩ => rfl
  | ⟨.nil, _, _⟩ => rfl
  | ⟨.implicitMember _, _, _⟩ => rfl
  | ⟨.other, _, _⟩ => rfl

/-! ### Built expressions -/

/-- An expression that is built from literals. -/
inductive Expr.Built : Expr → Prop where
  | bool (value : Bool) : Built (.bool value)
  | nil : Built .nil
  | integer {text : String} (h : (Token.integer text).IsAll text) : Built (.integer text)
  | float {text : String} (h : (Token.float text).IsAll text) : Built (.float text)
  | string {value : String} (h : '\n' ∉ value.toList) : Built (.string value)
  | array {elements : List Expr} (h : ∀ element ∈ elements, Built element) :
      Built (.array elements)

namespace Token

/-- Only a string holds a line feed. -/
theorem Stands.newline_notMem {token : Token} {text : List Char} (h : token.Stands text)
    (hstring : ∀ word, token ≠ .string word) : '\n' ∉ text := by
  obtain ⟨hreads, hstop⟩ := h [] .nil
  intro hline
  obtain ⟨word, hword, -⟩ := (hreads.newline_mem_iff hstop).1 hline
  exact hstring word hword

/-- An escaped value is read up to the quote behind it. -/
theorem quotationFrom_escaped {opened read : Nat} {value : List Char} (after : List Char)
    (hline : '\n' ∉ value) :
    quotationFrom [.line opened] read (StringLiteral.escaped value ++ '"' :: after) =
      .ok (read + (StringLiteral.escaped value).length + 1) := by
  induction value generalizing read with
  | nil =>
    rw [StringLiteral.escaped, List.flatMap_nil, List.nil_append, quotationFrom, quotationFrom]
    rfl
  | cons c value ih =>
    rw [List.mem_cons, not_or] at hline
    rw [StringLiteral.escaped, List.flatMap_cons]
    rw [StringLiteral.escaped] at ih
    split
    · next hc =>
      have hopen : c ≠ '(' := by rcases hc with rfl | rfl <;> decide
      rw [List.append_assoc, List.cons_append, List.cons_append, List.nil_append,
        quotationFrom_line_escape (Ne.symm hline.1) hopen, ih hline.2]
      simp only [List.length_append, List.length_cons, List.length_nil, Except.ok.injEq]
      omega
    · next hc =>
      rw [not_or] at hc
      rw [List.append_assoc, List.cons_append, List.nil_append,
        quotationFrom_line_plain hc.1 (Ne.symm hline.1) hc.2, ih hline.2]
      simp only [List.length_append, List.length_cons, List.length_nil, Except.ok.injEq]
      omega

/-- An escaped value does not start with a quote. -/
theorem head?_escaped_ne (value : List Char) :
    (StringLiteral.escaped value).head? ≠ some '"' := by
  cases value with
  | nil => simp [StringLiteral.escaped]
  | cons c value =>
    rw [StringLiteral.escaped, List.flatMap_cons]
    split
    · simp
    · next hc =>
      rw [not_or] at hc
      simpa using hc.1

theorem quotationLength_escaped {value rest : List Char} (hline : '\n' ∉ value)
    (hrest : Detached rest) :
    quotationLength (StringLiteral.escaped value ++ '"' :: rest) =
      .ok ((StringLiteral.escaped value).length + 2) := by
  have hquotation : quotationFrom [.line 0] 1 _ = _ := quotationFrom_escaped rest hline
  have hhead := head?_escaped_ne value
  generalize StringLiteral.escaped value = escaped at hquotation hhead ⊢
  unfold quotationLength
  split
  · next more htext =>
    -- two quotes would be an empty value, and a third one behind it
    cases escaped with
    | nil =>
      cases htext
      exact absurd (hrest '"' rfl) (by decide)
    | cons c escaped =>
      rw [List.cons_append, List.cons.injEq] at htext
      exact absurd (congrArg some htext.1) hhead
  · rw [hquotation]
    congr 1
    omega

/-- **The literal for a value on one line is a string.** -/
theorem stands_quoted {value : String} (hline : '\n' ∉ value.toList) :
    (Token.string (StringLiteral.quoted value).source).Stands
      (StringLiteral.quoted value).source.toList := by
  intro rest hrest
  have hlength := quotationLength_escaped hline hrest
  rw [StringLiteral.quoted, String.toList_ofList]
  constructor
  · refine ⟨'"', StringLiteral.escaped value.toList ++ '"' :: rest,
      ⟨.string, (StringLiteral.escaped value.toList).length + 2⟩, by simp, ?_, by simp, rfl⟩
    rw [lexeme, hlength]
    rfl
  · exact noGap_of_ne (by decide) _

end Token

/-! ### Reading back -/

/-- What an expression can start with: a token that neither closes an array nor makes it a
    dictionary. -/
def Token.startsElement : Token → Bool
  | .closing .square | .colon | .endOfInput => false
  | _ => true

/-- An expression is read back from its text, wherever the text stands: the tokens that
    stand for it come in front of those behind it, and reading them gives the expression. -/
structure Expr.ReadsBack (expr : Expr) : Prop where
  ne_nil : expr.text.toList ≠ []
  read : ∀ ⦃source before gap after : List Char⦄ ⦃rest : List Placed⦄ ⦃finish : Placed⦄,
    source = before ++ gap ++ expr.text.toList ++ after → Token.IsGap gap → '\n' ∉ gap →
    Token.Detached after → Scanned source false (before ++ gap ++ expr.text.toList) rest finish →
    ∃ first taken, Scanned source false before (first :: taken ++ rest) finish ∧
      first.token.startsElement = true ∧
      ∀ ⦃limit : Nat⦄ ⦃stopAtColon : Bool⦄ ⦃readTo : Nat⦄ ⦃requests : List Span⦄,
        expr.text.toList.length ≤ limit →
        endsExpr stopAtColon false (rest.headD finish) rest.tail.head? = true →
        ∃ value, value.unplaced = expr ∧
          Reader.exprWith source (Reader.elements source limit) stopAtColon
              ⟨first :: taken ++ rest, finish, readTo, requests⟩ =
            .ok (value, ⟨rest, finish, Text.width (before ++ gap ++ expr.text.toList), requests⟩)

namespace Reader

/-- An expression that is nothing but a literal. -/
theorem exprWith_of_literal {source before text rest : List Char}
    {elements : Reader (Option (List Expr))} {stopAtColon : Bool} {shape : Expr.Shape}
    {stream after : TokenStream} (hsource : source = before ++ text ++ rest)
    (hliteral : literal? elements stream = .ok (some shape, after))
    (hstart : stream.head.span.start = Text.width before)
    (hstop : after.readTo = Text.width (before ++ text))
    (hends : endsExpr stopAtColon false after.head after.pending.tail.head? = true) :
    exprWith source elements stopAtColon stream =
      .ok (⟨shape, String.ofList text, stream.head.span.upTo after.readTo⟩, after) := by
  have hmax : max after.readTo stream.head.span.start = after.readTo := by
    rw [hstop, hstart, Text.width_append]
    omega
  have htext : sourceText source stream.head.span.start after.readTo = String.ofList text := by
    rw [sourceText, hsource, Text.slice_append hstart.symm]
    rw [hstop, hstart, Text.width_append]
  have hshape : exprShape stopAtColon (some shape) after = .ok (shape, after) := by
    rw [exprShape]
    refine bind_eq_ok.2 ⟨true, after, ?_, rfl⟩
    rw [atExprEnd, get_bind_eq_ok, hends]
    rfl
  rw [exprWith]
  refine bind_eq_ok.2 ⟨_, _, rfl, bind_eq_ok.2 ⟨_, _, hliteral, ?_⟩⟩
  refine bind_eq_ok.2 ⟨_, _, hshape, ?_⟩
  rw [get_bind_eq_ok, hmax, htext]
  rfl

end Reader

namespace Expr

/-- A literal of one token. -/
theorem ReadsBack.of_token {shape : Shape} {text : String} {token : Token}
    (hstands : token.Stands text.toList) (hline : '\n' ∉ text.toList)
    (hstarts : token.startsElement = true) (hshape : shape.unplaced = shape)
    (hliteral : ∀ elements span rest finish readTo requests,
      Reader.literal? elements ⟨⟨token, span, false⟩ :: rest, finish, readTo, requests⟩ =
        .ok (some shape, ⟨rest, finish, span.stop, requests⟩)) :
    ReadsBack ⟨shape, text, .nowhere⟩ := by
  refine ⟨(hstands [] .nil).1.ne_nil, ?_⟩
  intro source before gap after rest finish hsource hgap hgapLine hafter hrest
  obtain ⟨hreads, hstop⟩ := hstands after hafter
  have hlines : gap.contains '\n' = false ∧ text.toList.contains '\n' = false := by
    simpa using ⟨hgapLine, hline⟩
  refine ⟨_, [], hrest.prepend hsource hgap hstop hreads hlines, hstarts, ?_⟩
  intro limit stopAtColon readTo requests _ hends
  have hread := hliteral (Reader.elements source limit) (Span.across (before ++ gap) text.toList)
    rest finish readTo requests
  have hstop : (Span.across (before ++ gap) text.toList).stop =
      Text.width (before ++ gap ++ text.toList) := (Text.width_append _ _).symm
  rw [hstop] at hread
  refine ⟨_, ?_, Reader.exprWith_of_literal hsource hread rfl rfl hends⟩
  rw [unplaced, hshape, String.ofList_toList]

/-! ### Arrays -/

def listText (elements : List Expr) : List Char :=
  [',', ' '].intercalate (elements.map (·.text.toList))

theorem listText_cons_cons (first second : Expr) (rest : List Expr) :
    listText (first :: second :: rest) =
      first.text.toList ++ [',', ' '] ++ listText (second :: rest) := by
  simp only [listText, List.map_cons, List.intercalate_cons_cons]

theorem text_array (elements : List Expr) :
    (Expr.array elements).text.toList = '[' :: listText elements ++ [']'] := by
  rw [array, String.toList_append, String.toList_append, String.toList_intercalate, List.map_map]
  rfl

end Expr

namespace Reader

/-- An element that a comma or the closing bracket comes behind, and the other elements. -/
theorem elements_cons {source : List Char} {limit : Nat} {element : Expr} {values : List Expr}
    {stream between later after : TokenStream}
    (hstarts : stream.head.token.startsElement = true)
    (helement : exprWith source (elements source limit) true stream = .ok (element, between))
    (hbetween : between.head.token = .comma ∧ next between = .ok (between.head, later) ∨
      between.head.token = .closing .square ∧ later = between)
    (hmore : elements source limit later = .ok (some values, after)) :
    elements source (limit + 1) stream = .ok (some (element :: values), after) := by
  have hrest : ∀ {start : TokenStream}, elements source limit start = .ok (some values, after) →
      (elements source limit >>= fun items => pure (items.map (element :: ·))) start =
        .ok (some (element :: values), after) :=
    fun h => bind_eq_ok.2 ⟨_, _, h, rfl⟩
  rw [elements, peek_bind_eq_ok]
  generalize stream.head.token = token at hstarts
  split
  · cases hstarts
  · cases hstarts
  · cases hstarts
  · refine bind_eq_ok.2 ⟨element, between, helement, ?_⟩
    rw [peek_bind_eq_ok]
    rcases hbetween with ⟨hcomma, hnext⟩ | ⟨hclose, rfl⟩
    · rw [hcomma]
      exact bind_eq_ok.2 ⟨_, _, hnext, hrest hmore⟩
    · rw [hclose]
      exact hrest hmore

end Reader

namespace Expr

/-- Some expressions are read back from the text between two brackets, together with the
    closing bracket behind them. -/
def AllReadBack (elements : List Expr) : Prop :=
  ∀ ⦃source before gap after : List Char⦄ ⦃rest : List Placed⦄ ⦃finish : Placed⦄,
    source = before ++ gap ++ listText elements ++ ']' :: after → Token.IsGap gap → '\n' ∉ gap →
    Scanned source false (before ++ gap ++ listText elements ++ [']']) rest finish →
    ∃ first taken, Scanned source false before (first :: taken ++ rest) finish ∧
      (elements = [] → first.token = .closing .square) ∧
      ∀ ⦃limit readTo : Nat⦄ ⦃requests : List Span⦄, (listText elements).length < limit →
        ∃ values, allUnplaced values = elements ∧
          Reader.elements source limit ⟨first :: taken ++ rest, finish, readTo, requests⟩ =
            .ok (some values, ⟨rest, finish,
              Text.width (before ++ gap ++ listText elements ++ [']']), requests⟩)

theorem AllReadBack.nil : AllReadBack [] := by
  intro source before gap after rest finish hsource hgap hline hrest
  have hempty : listText [] = [] := rfl
  rw [hempty, List.append_nil] at hsource hrest ⊢
  obtain ⟨hreads, hstop⟩ := Token.stands_of_mark (c := ']') (fun _ => rfl) (by decide) after
  have hscan := hrest.prepend (by simp [hsource]) hgap hstop hreads (by simpa using hline)
  refine ⟨_, [], hscan, fun _ => rfl, ?_⟩
  intro limit readTo requests hlimit
  obtain ⟨limit, rfl⟩ : ∃ k, limit = k + 1 := ⟨limit - 1, by omega⟩
  refine ⟨[], rfl, ?_⟩
  rw [Text.width_append]
  rfl

/-- The text behind an element: the closing bracket, or a comma and further elements. -/
def tailText : List Expr → List Char
  | [] => [']']
  | others => ',' :: ' ' :: listText others ++ [']']

theorem listText_cons (first : Expr) (others : List Expr) :
    listText (first :: others) ++ [']'] = first.text.toList ++ tailText others := by
  cases others with
  | nil => simp [listText, tailText]
  | cons second rest => simp [listText_cons_cons, tailText]

theorem detached_tailText (others : List Expr) (after : List Char) :
    Token.Detached (tailText others ++ after) := by
  cases others <;> exact .cons (by decide) _

/-- What comes behind an element is read back: a mark, and then the other elements, with
    the mark left for them if it is the closing bracket. -/
theorem AllReadBack.tail {others : List Expr} (h : AllReadBack others)
    {source before after : List Char} {rest : List Placed} {finish : Placed}
    (hsource : source = before ++ tailText others ++ after)
    (hrest : Scanned source false (before ++ tailText others) rest finish) :
    ∃ mark taken, Scanned source false before (mark :: taken ++ rest) finish ∧
      ∀ ⦃limit readTo : Nat⦄ ⦃requests : List Span⦄, (tailText others).length ≤ limit →
        ∃ values later, allUnplaced values = others ∧
          (mark.token = .comma ∧
              later = ⟨taken ++ rest, finish, mark.span.stop, requests⟩ ∨
            mark.token = .closing .square ∧
              later = ⟨mark :: taken ++ rest, finish, readTo, requests⟩) ∧
          Reader.elements source limit later =
            .ok (some values, ⟨rest, finish, Text.width (before ++ tailText others),
              requests⟩) := by
  cases others with
  | nil =>
    have hparts : source = before ++ [] ++ listText [] ++ ']' :: after := by
      rw [hsource]
      simp [tailText, listText]
    have hbehind : before ++ tailText [] = before ++ [] ++ listText [] ++ [']'] := by
      simp [tailText, listText]
    rw [hbehind] at hrest ⊢
    obtain ⟨mark, taken, hscan, hclose, hread⟩ := h hparts .nil List.not_mem_nil hrest
    refine ⟨mark, taken, hscan, ?_⟩
    intro limit readTo requests hlimit
    obtain ⟨values, hvalues, hvaluesRead⟩ := @hread limit readTo requests hlimit
    exact ⟨values, _, hvalues, .inr ⟨hclose rfl, rfl⟩, hvaluesRead⟩
  | cons second others =>
    have hbehind : before ++ tailText (second :: others) =
        before ++ [','] ++ [' '] ++ listText (second :: others) ++ [']'] := by
      simp [tailText]
    rw [hbehind] at hrest hsource ⊢
    have hparts : source = before ++ [','] ++ [' '] ++ listText (second :: others) ++
        ']' :: after := by
      simp [hsource]
    obtain ⟨first, taken, hscan, -, hread⟩ := h hparts (Token.isGap_blank rfl) (by decide) hrest
    obtain ⟨hreads, hstop⟩ := Token.stands_of_mark (c := ',') (fun _ => rfl) (by decide)
      ([' '] ++ listText (second :: others) ++ ']' :: after)
    rw [← List.append_nil before] at hscan
    have hcomma := hscan.prepend (by simp [hparts]) .nil hstop hreads (by decide)
    refine ⟨_, first :: taken, hcomma, ?_⟩
    intro limit readTo requests hlimit
    have hless : (listText (second :: others)).length < limit := by
      simp only [tailText, List.length_append, List.length_cons] at hlimit
      omega
    obtain ⟨values, hvalues, hvaluesRead⟩ :=
      @hread limit (Span.across (before ++ []) [',']).stop requests hless
    exact ⟨values, _, hvalues, .inl ⟨rfl, rfl⟩, hvaluesRead⟩

/-- A first element, and the others behind it. -/
theorem AllReadBack.cons {element : Expr} {others : List Expr} (helement : element.ReadsBack)
    (hothers : AllReadBack others) : AllReadBack (element :: others) := by
  intro source before gap after rest finish hsource hgap hline hrest
  have hbehind : before ++ gap ++ listText (element :: others) ++ [']'] =
      before ++ gap ++ element.text.toList ++ tailText others := by
    rw [List.append_assoc, listText_cons, ← List.append_assoc]
  rw [hbehind] at hrest ⊢
  have hparts : source = before ++ gap ++ element.text.toList ++ tailText others ++ after := by
    rw [hsource, ← hbehind]
    simp
  obtain ⟨mark, taken, hscan, hmore⟩ := hothers.tail hparts hrest
  obtain ⟨first, front, hwhole, hstarts, hread⟩ := helement.read
    (by rw [hparts, List.append_assoc]) hgap hline (detached_tailText others after) hscan
  have hpending : first :: (front ++ mark :: taken) ++ rest =
      first :: front ++ (mark :: taken ++ rest) := by
    simp
  refine ⟨first, front ++ mark :: taken, by rwa [hpending], by simp, ?_⟩
  intro limit readTo requests hlimit
  obtain ⟨limit, rfl⟩ : ∃ k, limit = k + 1 := ⟨limit - 1, by omega⟩
  -- the element takes one from the limit, and at least one character from the text
  have hlength : element.text.toList.length + (tailText others).length ≤ limit + 1 := by
    rw [← List.length_append, ← listText_cons, List.length_append]
    exact hlimit
  have hpos := List.length_pos_iff.2 helement.ne_nil
  have htail : 0 < (tailText others).length := by
    cases others <;> simp [tailText]
  obtain ⟨values, later, hvalues, hlater, hvaluesRead⟩ :=
    @hmore limit (Text.width (before ++ gap ++ element.text.toList)) requests (by omega)
  have hends : endsExpr true false mark (taken ++ rest).head? = true := by
    rcases hlater with ⟨hmark, -⟩ | ⟨hmark, -⟩ <;> rw [endsExpr, hmark]
  obtain ⟨value, hvalue, hvalueRead⟩ := @hread limit true readTo requests (by omega) hends
  refine ⟨value :: values, by rw [allUnplaced, hvalue, hvalues], ?_⟩
  rw [hpending]
  refine Reader.elements_cons hstarts hvalueRead ?_ hvaluesRead
  rcases hlater with ⟨hmark, rfl⟩ | ⟨hmark, rfl⟩
  · exact .inl ⟨hmark, rfl⟩
  · exact .inr ⟨hmark, rfl⟩

theorem AllReadBack.of_forall {elements : List Expr} (h : ∀ element ∈ elements, element.ReadsBack) :
    AllReadBack elements := by
  induction elements with
  | nil => exact .nil
  | cons element others ih =>
    rw [List.forall_mem_cons] at h
    exact .cons h.1 (ih h.2)

/-- An array of expressions that are all read back. -/
theorem ReadsBack.array {elements : List Expr} (h : AllReadBack elements) :
    (Expr.array elements).ReadsBack := by
  refine ⟨by simp [text_array], ?_⟩
  intro source before gap after rest finish hsource hgap hgapLine _ hrest
  have hbehind : before ++ gap ++ (Expr.array elements).text.toList =
      before ++ gap ++ ['['] ++ [] ++ listText elements ++ [']'] := by
    simp [text_array]
  have hparts : source = before ++ gap ++ ['['] ++ [] ++ listText elements ++ ']' :: after := by
    rw [hsource, hbehind]
    simp
  obtain ⟨first, taken, hscan, -, hread⟩ :=
    h hparts .nil List.not_mem_nil (by rwa [← hbehind])
  obtain ⟨hreads, hstop⟩ := Token.stands_of_mark (c := '[') (fun _ => rfl) (by decide)
    (listText elements ++ ']' :: after)
  have hopen := hscan.prepend (by simp [hparts]) hgap hstop hreads (by simpa using hgapLine)
  refine ⟨_, first :: taken, hopen, rfl, ?_⟩
  intro limit stopAtColon readTo requests hlimit hends
  have hless : (listText elements).length < limit := by
    rw [text_array] at hlimit
    simp only [List.length_append, List.length_cons] at hlimit
    omega
  obtain ⟨values, hvalues, hvaluesRead⟩ :=
    @hread limit (Span.across (before ++ gap) ['[']).stop requests hless
  rw [← hbehind] at hvaluesRead
  have hliteral : Reader.literal? (Reader.elements source limit)
      ⟨⟨.opening .square, Span.across (before ++ gap) ['['], false⟩ :: first :: taken ++ rest,
        finish, readTo, requests⟩ = .ok (some (.array values), _) :=
    Reader.bind_eq_ok.2 ⟨_, _, rfl, Reader.bind_eq_ok.2 ⟨_, _, rfl,
      Reader.bind_eq_ok.2 ⟨_, _, hvaluesRead, rfl⟩⟩⟩
  refine ⟨_, ?_, Reader.exprWith_of_literal hsource hliteral rfl rfl hends⟩
  rw [unplaced, Shape.unplaced, hvalues, String.ofList_toList]
  rfl

/-! ### Every built expression -/

/-- **A built expression is read back.** -/
theorem Built.readsBack {expr : Expr} (h : expr.Built) : expr.ReadsBack := by
  have hword : ∀ word : String, (Token.name word).IsAll word →
      (Token.name word).Stands word.toList := fun _ h => h.stands rfl
  induction h with
  | bool value =>
    cases value with
    | false =>
      exact .of_token (hword "false" ⟨_, _, rfl, rfl⟩) (by decide) rfl rfl
        fun _ _ _ _ _ _ => rfl
    | true =>
      exact .of_token (hword "true" ⟨_, _, rfl, rfl⟩) (by decide) rfl rfl
        fun _ _ _ _ _ _ => rfl
  | nil =>
    exact .of_token (hword "nil" ⟨_, _, rfl, rfl⟩) (by decide) rfl rfl fun _ _ _ _ _ _ => rfl
  | integer hall =>
    have hstands := hall.stands rfl
    exact .of_token hstands (hstands.newline_notMem nofun) rfl rfl fun _ _ _ _ _ _ => rfl
  | float hall =>
    have hstands := hall.stands rfl
    exact .of_token hstands (hstands.newline_notMem nofun) rfl rfl fun _ _ _ _ _ _ => rfl
  | string hline =>
    exact .of_token (Token.stands_quoted hline) (StringLiteral.notMem_quoted hline (by decide))
      rfl rfl fun _ _ _ _ _ _ => rfl
  | array _ ih => exact .array (.of_forall ih)

end Expr

/-! ### A variable with an initializer -/

/-- A variable at the end of a body. -/
theorem Reader.item_of_variable {source : List Char} {word name finish : Placed}
    {pending : List Placed} {readTo : Nat} {requests : List Span} {label : String}
    {written? : Option WrittenType} {value? : Option Expr} {typed after : TokenStream}
    (hword : word.token = .name "var") (hname : name.token = .name label)
    (htyped : type? source ⟨pending, finish, name.span.stop, requests⟩ = .ok (written?, typed))
    (hvalued : initializer? source typed = .ok (value?, after))
    (hclose : after.head.token = .closing .curly) :
    item source ⟨word :: name :: pending, finish, readTo, requests⟩ =
      .ok (.entry (.property ⟨[], false, .mutable,
        [⟨⟨label, name.span⟩, written?, value?, .stored⟩], word.span.upTo after.readTo⟩),
        after) := by
  obtain ⟨_, wordSpan, wordFlag⟩ := word
  obtain ⟨_, nameSpan, nameFlag⟩ := name
  cases hword
  cases hname
  have haccessors : accessors after = .ok (.stored, after) := by
    rw [accessors, peek_bind_eq_ok, hclose]
    rfl
  have hmarkers : ∀ here, markers [] here = .ok ([], here) := fun _ => rfl
  have hnamed : Reader.name ⟨⟨.name label, nameSpan, nameFlag⟩ :: pending, finish, wordSpan.stop,
      requests⟩ = .ok (⟨label, nameSpan⟩, _) := rfl
  have hnext : ∀ rest, next ⟨⟨.name "var", wordSpan, wordFlag⟩ :: rest, finish, readTo, requests⟩ =
      .ok (⟨.name "var", wordSpan, wordFlag⟩, ⟨rest, finish, wordSpan.stop, requests⟩) :=
    fun _ => rfl
  exact item_of_property rfl rfl (.inr rfl) (property_of_single
    ⟨⟨label, nameSpan⟩, written?, value?, .stored⟩ wordSpan false (hnext _) rfl (hmarkers _) hnamed
    htyped hvalued haccessors (by rw [hclose]; decide))

/-- An initializer. -/
theorem Reader.initializer?_of_equals {source : List Char} {sign finish : Placed}
    {pending : List Placed} {readTo : Nat} {requests : List Span} {value : Expr}
    {after : TokenStream} (hsign : sign.token = .equals)
    (hvalue : expr source false ⟨pending, finish, sign.span.stop, requests⟩ = .ok (value, after)) :
    initializer? source ⟨sign :: pending, finish, readTo, requests⟩ = .ok (some value, after) := by
  obtain ⟨_, signSpan, signFlag⟩ := sign
  cases hsign
  exact bind_eq_ok.2 ⟨_, _, rfl, bind_eq_ok.2 ⟨_, _, rfl, bind_eq_ok.2 ⟨_, _, hvalue, rfl⟩⟩⟩

def Expr.inStruct (expr : Expr) : List Char :=
  "struct S \x7b\nvar x = ".toList ++ expr.text.toList ++ "\n\x7d".toList

def Expr.front : List Char := "struct S \x7b\nvar x =".toList

theorem Expr.inStruct_eq (expr : Expr) :
    expr.inStruct = front ++ [' '] ++ expr.text.toList ++ ['\n', '\x7d'] := rfl

def Expr.headerTokens : List Placed :=
  [⟨.name "struct", ⟨0, 6, 1, 1⟩, true⟩, ⟨.name "S", ⟨7, 8, 1, 8⟩, false⟩,
    ⟨.opening .curly, ⟨9, 10, 1, 10⟩, false⟩]

def Expr.variableTokens : List Placed :=
  [⟨.name "var", ⟨11, 14, 2, 1⟩, true⟩, ⟨.name "x", ⟨15, 16, 2, 5⟩, false⟩,
    ⟨.equals, ⟨17, 18, 2, 7⟩, false⟩]

theorem Expr.tokenize_front :
    ∃ finish, tokenize front = .ok ⟨headerTokens ++ variableTokens, finish⟩ := ⟨_, rfl⟩

/-- The tokens in front of a blank keep their places. -/
theorem Expr.scanned_front {more : List Char} {tokens : List Placed} {finish : Placed}
    (hmore : Token.Detached more) (h : Scanned (front ++ more) false front tokens finish) :
    Scanned (front ++ more) true [] (headerTokens ++ (variableTokens ++ tokens)) finish := by
  obtain ⟨_, hfront⟩ := tokenize_front
  have hlines : ∀ placed ∈ headerTokens ++ variableTokens, '\n' ∉ placed.token.spelling := by decide
  exact (tokenize_scanned hfront).append rfl hlines nofun hmore h

/-- An expression at the end of the last line but one, with a brace behind it. -/
theorem Expr.ReadsBack.scanned_last {expr : Expr} (h : expr.ReadsBack)
    {source before gap : List Char}
    (hsource : source = before ++ gap ++ expr.text.toList ++ ['\n', '\x7d'])
    (hgap : Token.IsGap gap) (hline : '\n' ∉ gap) :
    ∃ first taken close finish value stop,
      Scanned source false before (first :: taken ++ [close]) finish ∧
      close.token = .closing .curly ∧ finish.token = .endOfInput ∧ value.unplaced = expr ∧
      Reader.expr source false ⟨first :: taken ++ [close], finish, Text.width before, []⟩ =
        .ok (value, ⟨[close], finish, stop, []⟩) := by
  have hend : Scanned source false (before ++ gap ++ expr.text.toList ++ ['\n'] ++ ['\x7d']) []
      ⟨.endOfInput, Span.across source [], false⟩ :=
    .finish (by simp [hsource] : _ = _ ++ []) rfl rfl
  obtain ⟨hreads, hstop⟩ := Token.stands_of_mark (c := '\x7d') (fun _ => rfl) (by decide) []
  have hclose : Scanned source false (before ++ gap ++ expr.text.toList)
      [⟨.closing .curly,
        Span.across (before ++ gap ++ expr.text.toList ++ ['\n']) ['\x7d'], true⟩] _ :=
    .token (by simp [hsource]) (Token.isGap_blank rfl) hstop hreads rfl rfl hend
  obtain ⟨first, taken, hscan, -, hread⟩ := h.read hsource hgap hline (.cons (by decide) _) hclose
  have hlong : expr.text.toList.length ≤ readingLimit source := by
    rw [readingLimit, hsource]
    simp only [List.length_append]
    omega
  obtain ⟨value, hvalue, hvalueRead⟩ := @hread _ false (Text.width before) [] hlong rfl
  exact ⟨first, taken, _, _, value, _, hscan, rfl, rfl, hvalue, hvalueRead⟩

/-- The declaration is cut into the tokens in front, those of the expression, and a brace. -/
theorem Expr.ReadsBack.tokenize_inStruct {expr : Expr} (h : expr.ReadsBack) :
    ∃ first taken close finish value stop,
      tokenize expr.inStruct =
        .ok ⟨headerTokens ++ (variableTokens ++ (first :: taken ++ [close])), finish⟩ ∧
      close.token = .closing .curly ∧ finish.token = .endOfInput ∧ value.unplaced = expr ∧
      Reader.expr expr.inStruct false ⟨first :: taken ++ [close], finish, 18, []⟩ =
        .ok (value, ⟨[close], finish, stop, []⟩) := by
  have hparts := expr.inStruct_eq
  obtain ⟨first, taken, close, finish, value, stop, hscan, hclose, hfinish, hvalue, hread⟩ :=
    h.scanned_last hparts (Token.isGap_blank rfl) (by decide)
  refine ⟨first, taken, close, finish, value, stop, ?_, hclose, hfinish, hvalue, hread⟩
  rw [tokenize_iff_scanned]
  rw [List.append_assoc, List.append_assoc] at hparts
  rw [hparts] at hscan ⊢
  exact scanned_front (.cons (by decide) _) hscan

/-- An outline of one declaration `S` with nothing but a variable `x`, which a value
    initializes. -/
def Outline.HasVariable (outline : Outline) (value : Expr) : Prop :=
  ∃ declaration member binding, outline.declarations = [declaration] ∧
    declaration.kind = .structType ∧ declaration.name = "S" ∧
    declaration.items = [.property member] ∧ member.mutability = .mutable ∧
    member.isStatic = false ∧ member.bindings = [binding] ∧ binding.pattern.name = "x" ∧
    binding.type? = none ∧ binding.initializer? = some value ∧ binding.accessors = .stored

/-- A declaration with a member and nothing else. -/
theorem Outline.ofSource_of_member {source : List Char} {word close finish : Placed}
    {pending : List Placed} {stop : Nat} {member : Member}
    (htokens : tokenize source = .ok ⟨Expr.headerTokens ++ word :: pending, finish⟩)
    (hword : word.token = .name "var")
    (hitem : Reader.item source ⟨word :: pending, finish, 10, []⟩ =
      .ok (.entry (.property member), ⟨[close], finish, stop, []⟩))
    (hclose : close.token = .closing .curly) (hfinish : finish.token = .endOfInput)
    (hlong : 2 ≤ source.length) :
    ∃ outline declaration, Outline.ofSource source = .ok outline ∧
      outline.declarations = [declaration] ∧ declaration.kind = .structType ∧
      declaration.name = "S" ∧ declaration.items = [.property member] := by
  obtain ⟨limit, hlimit⟩ : ∃ limit, readingLimit source = limit + 3 :=
    ⟨source.length - 2, by rw [readingLimit]; omega⟩
  have hheader : Reader.item source ⟨Expr.headerTokens ++ word :: pending, finish, 0, []⟩ =
      .ok (.opened ⟨.structType, "S", [], [], ⟨0, 6, 1, 1⟩, ⟨9, 10, 1, 10⟩⟩,
        ⟨word :: pending, finish, 10, []⟩) := rfl
  have hname : ∀ name, ¬ (Token.name name = .closing .curly ∨ Token.name name = .endOfInput) := by
    simp
  have hfirst : ¬ (word.token = .closing .curly ∨ word.token = .endOfInput) := by
    rw [hword]
    exact hname "var"
  have hbehind : Reader.items source (limit + 1) ⟨[close], finish, stop, []⟩ =
      .ok ([], ⟨[close], finish, stop, []⟩) := Reader.items_of_stop (.inl hclose)
  have hend : Reader.items source (limit + 1 + 1) ⟨[], finish, close.span.stop, []⟩ =
      .ok ([], ⟨[], finish, close.span.stop, []⟩) := Reader.items_of_stop (.inr hfinish)
  have hbrace : Reader.closingBrace "S" ⟨[close], finish, stop, []⟩ =
      .ok (close.span, ⟨[], finish, close.span.stop, []⟩) := by
    have hhead : TokenStream.head ⟨[close], finish, stop, []⟩ = close := rfl
    rw [Reader.closingBrace, Reader.peek_bind_eq_ok, hhead, hclose]
    rfl
  have hinner := Reader.items_of_entry (by exact hfirst) hitem hbehind
  have hitems := Reader.items_of_opened (by exact hname "struct") hheader hinner hbrace hend
  rw [← hlimit] at hitems
  exact ⟨_, _, Outline.ofSource_of_items htokens hitems hfinish, rfl, rfl, rfl, rfl⟩

/-- An expression that is read back is read back as an initializer. -/
theorem Expr.ReadsBack.ofSource_inStruct {expr : Expr} (h : expr.ReadsBack) :
    ∃ outline value, Outline.ofSource expr.inStruct = .ok outline ∧ outline.HasVariable value ∧
      value.unplaced = expr := by
  obtain ⟨first, taken, close, finish, value, stop, htokens, hclose, hfinish, hvalue, hread⟩ :=
    h.tokenize_inStruct
  have hitem : Reader.item expr.inStruct
      ⟨variableTokens ++ (first :: taken ++ [close]), finish, 10, []⟩ =
        .ok (.entry (.property _), ⟨[close], finish, stop, []⟩) :=
    Reader.item_of_variable rfl rfl (by rfl) (Reader.initializer?_of_equals rfl hread) hclose
  have hlong : 2 ≤ expr.inStruct.length := by
    rw [inStruct_eq]
    simp only [List.length_append, List.length_cons]
    omega
  obtain ⟨outline, declaration, hread, hdeclarations, hkind, hname, hitems⟩ :=
    Outline.ofSource_of_member htokens rfl hitem hclose hfinish hlong
  exact ⟨outline, value, hread,
    ⟨declaration, _, _, hdeclarations, hkind, hname, hitems, rfl, rfl, rfl, rfl, rfl, rfl, rfl⟩,
    hvalue⟩

/-- **Literals are read back.** The text of an expression that is built from literals, as
    the initializer of a variable, is read as the same expression at other places; so the
    type that the expression shows is the one that the text shows. -/
theorem Outline.ofSource_built_initializer {expr : Expr} (h : expr.Built) :
    ∃ outline value, Outline.ofSource expr.inStruct = .ok outline ∧ outline.HasVariable value ∧
      value.unplaced = expr ∧ value.literalType? = expr.literalType? := by
  obtain ⟨outline, value, hread, hvariable, hvalue⟩ := h.readsBack.ofSource_inStruct
  refine ⟨outline, value, hread, hvariable, hvalue, ?_⟩
  rw [← hvalue, value.literalType?_unplaced]

def Expr.mixed : Expr :=
  .array [.integer "0x1F", .string "say \"\\(hi)\"", .array [.bool true, .nil, .array []],
    .float "1.5e3"]

theorem Outline.ofSource_built_initializer_mixed :
    Expr.mixed.Built ∧ ∃ outline value, Outline.ofSource Expr.mixed.inStruct = .ok outline ∧
      outline.HasVariable value ∧ value.unplaced = Expr.mixed ∧
      value.literalType? = some (.array .int) := by
  have hbuilt : Expr.mixed.Built := by
    refine .array ?_
    simp only [List.forall_mem_cons]
    refine ⟨.integer ⟨_, _, rfl, rfl⟩, .string (by decide), .array ?_, .float ⟨_, _, rfl, rfl⟩,
      List.forall_mem_nil _⟩
    simp only [List.forall_mem_cons]
    exact ⟨.bool true, .nil, .array (List.forall_mem_nil _), List.forall_mem_nil _⟩
  exact ⟨hbuilt, ofSource_built_initializer hbuilt⟩

end Memberwise
