import JavaSyntax.Proofs.Grammar.DeclarationYields
import JavaSyntax.Proofs.Type.Field
import JavaSyntax.Proofs.View.WrittenType
import JavaSyntax.Sample

namespace JavaSyntax.Sample

open Word Grammar

variable {number : Nat} {ts : List Token}

abbrev int : Word := ⟨.intKw, "int"⟩

abbrev opened : Word := ⟨.leftBrace, "\x7b"⟩

abbrev closed : Word := ⟨.rightBrace, "\x7d"⟩

def name (number : Nat) : String := "method" ++ toString number

def intsWords : List Word := [int, leftBracket, rightBracket, ⟨.ident, "xs"⟩]

def restWords : List Word :=
  [⟨.finalKw, "final"⟩, ⟨.ident, "String"⟩, ⟨.ellipsis, "..."⟩, ⟨.ident, "rest"⟩]

def parameterWords : List Word := leftParen :: (intsWords ++ comma :: (restWords ++ [rightParen, opened]))

def headWords (number : Nat) : List Word :=
  ⟨.publicKw, "public"⟩ :: int :: ⟨.ident, name number⟩ :: parameterWords

def totalWords (number : Nat) : List Word :=
  [int, ⟨.ident, "total"⟩, ⟨.eq, "="⟩, ⟨.intLiteral, toString number⟩, ⟨.semicolon, ";"⟩]

/-- The words of a method, line by line. -/
def methodWords (number : Nat) : List (List Word) :=
  headWords number :: totalWords number :: statements.map ofText

def classWords : List Word := [⟨.publicKw, "public"⟩, ⟨.classKw, "class"⟩, ⟨.ident, "Synthetic"⟩, opened]

/-- The words of a whole source, line by line. -/
def words (methods : Nat) : List (List Word) :=
  classWords :: ((List.range methods).flatMap methodWords ++ [[closed]])

theorem line_head (number : Nat) :
    Line ("    public int method" ++ toString number ++ "(int[] xs, final String... rest) \x7b")
      (headWords number) where
  glued := by
    have hpublic : Lexeme.Names .publicKw "public" := .of_isLetters rfl rfl
    have hint : Lexeme.Names .intKw "int" := .of_isLetters rfl rfl
    have hname : Lexeme.Names .ident (name number) := .append_number rfl number
    have hwords : ofText "(int[] xs, final String... rest) \x7b" = parameterWords := by decide +kernel
    have hparameters := glued_ofText "(int[] xs, final String... rest) \x7b"
    rw [hwords] at hparameters
    have hnamed := Glued.word (ends_of_names hname (fun d hd => by cases hd; rfl)) hparameters
    have htyped := Glued.word (ends_of_names hint (fun d hd => by cases hd; rfl)) hnamed.space
    have hall := Glued.word (ends_of_names hpublic (fun d hd => by cases hd; rfl)) htyped.space
    simpa [name, headWords] using hall.space.space.space.space
  known := by simp [headWords, parameterWords, intsWords, restWords]
  plain := by simpa using fun h => Lexeme.forall_mem_toDigits (P := (· ≠ '/')) (by decide) number _ h rfl

theorem line_total (number : Nat) :
    Line ("        int total = " ++ toString number ++ ";") (totalWords number) where
  glued := by
    have hint : Lexeme.Names .intKw "int" := .of_isLetters rfl rfl
    have htotal : Lexeme.Names .ident "total" := .of_isLetters rfl rfl
    have hclosed := Glued.nil.sign (w := ⟨.semicolon, ";"⟩) (by simp)
    have hvalue := (Glued.word (ends_numeral number []) hclosed).space
    have hset := (Glued.word (w := ⟨.eq, "="⟩) (ends_of_read rfl rfl rfl) hvalue).space
    have hnamed := (Glued.word (ends_of_names htotal (fun d hd => by cases hd; rfl)) hset).space
    have hall := Glued.word (ends_of_names hint (fun d hd => by cases hd; rfl)) hnamed
    simpa [totalWords] using hall.space.space.space.space.space.space.space.space
  known := by simp [totalWords]
  plain := by simpa using fun h => Lexeme.forall_mem_toDigits (P := (· ≠ '/')) (by decide) number _ h rfl

theorem line_statements : List.Forall₂ Line statements (statements.map ofText) := by
  rw [List.forall₂_map_right_iff, List.forall₂_same]
  have hall : ∀ l ∈ statements, (∀ w ∈ ofText l, w.kind ≠ .unknown) ∧ '/' ∉ l.toList := by
    decide +kernel
  exact fun l hl => ⟨glued_ofText l, (hall l hl).1, (hall l hl).2⟩

theorem line_method (number : Nat) : List.Forall₂ Line (method number) (methodWords number) :=
  .cons (line_head number) (.cons (line_total number) line_statements)

theorem line_class : Line "public class Synthetic \x7b" classWords where
  glued := by
    have hwords : ofText "public class Synthetic \x7b" = classWords := by decide +kernel
    rw [← hwords]
    exact glued_ofText _
  known := by decide
  plain := by decide

theorem line_closed : Line "\x7d" [closed] where
  glued := Glued.nil.sign (by simp)
  known := by decide
  plain := by decide

theorem spelled_source (methods : Nat) :
    Word.Spelled (words methods).flatten (significantTokens (source methods)) := by
  have hmethods : List.Forall₂ Line ((List.range methods).flatMap method)
      ((List.range methods).flatMap methodWords) :=
    List.rel_flatMap (R := Eq) (List.forall₂_refl _) fun number _ h => h ▸ line_method number
  exact spelled_lines (.cons line_class (List.rel_append hmethods (.cons line_closed .nil)))

def modifiersTree (modifiers : List String) : Branch :=
  .bare .modifierList none (modifiers.map fun m => .bare .modifier (some m) [])

/-- A parameter with one dimension behind its type. -/
def parameterTree (modifiers : List String) (element : Kind) (type dimension name : String) : Branch :=
  .bare .formalParameter none [modifiersTree modifiers,
    .bare .arrayType none [.bare element (some type) [],
      .bare .arrayDimensions none [.bare .arrayTypeDim (some dimension) []]],
    .bare .variableDeclaratorId (some name) []]

def parameterTrees : List Branch :=
  [parameterTree [] .primitiveType "int" "[]" "xs", parameterTree ["final"] .classType "String" "..." "rest"]

def methodTree (number : Nat) (block : Branch) : Branch :=
  .bare .methodDeclaration (some (name number)) [modifiersTree ["public"],
    .bare .primitiveType (some "int") [], .bare .formalParameters none parameterTrees, block]

/-- The tree of a source with these methods. -/
def tree (methods : List Branch) : Branch :=
  .bare .compilationUnit none [.bare .classDeclaration (some "Synthetic")
    [modifiersTree ["public"], .bare .classBody none methods]]

/-- The method with this number, whatever stands in its block. -/
def IsMethod (number : Nat) (b : Branch) : Prop :=
  ∃ block : Branch, block.kind = .block ∧ b = methodTree number block

theorem yields_ints (h : Word.Spelled intsWords ts) (r : List Token) : ∃ t us, ts = t :: us ∧
    startsParameter t.kind = true ∧ (parameter (t :: (us ++ r))).Yields []
      [parameterTree [] .primitiveType "int" "[]" "xs"] r := by
  obtain ⟨t, _, rfl, hopened⟩ := h.cons
  obtain ⟨left, _, rfl, hclosed⟩ := hopened.cons
  obtain ⟨right, _, rfl, hname⟩ := hclosed.cons
  obtain ⟨o, _, rfl, hnil⟩ := hname.cons
  rw [hnil.nil]
  have hdimension := yields_dimensions_brackets (v := true) (l := ⟨.leftBracket, "[", left⟩)
    (p := ⟨.rightBracket, "]", right⟩) rfl rfl (yields_dimensions_ident (o := ⟨.ident, "xs", o⟩) rfl r)
  have htype := yields_primitiveArray (t := ⟨.intKw, "int", t⟩)
    (by decide : primitiveKeywords.contains .intKw = true) hdimension
  have hnone : ∀ m ∈ ([] : List Token), modifierKeywords.contains m.kind = true := List.forall_mem_nil _
  exact ⟨_, _, rfl, (by decide : startsParameter .intKw = true),
    yields_parameter htype rfl hnone (by decide : startsModifier .intKw = false)⟩

theorem yields_rest (h : Word.Spelled restWords ts) (r : List Token) : ∃ t us, ts = t :: us ∧
    startsParameter t.kind = true ∧ (parameter (t :: (us ++ r))).Yields []
      [parameterTree ["final"] .classType "String" "..." "rest"] r := by
  obtain ⟨m, _, rfl, htype⟩ := h.cons
  obtain ⟨t, _, rfl, hdots⟩ := htype.cons
  obtain ⟨e, _, rfl, hname⟩ := hdots.cons
  obtain ⟨o, _, rfl, hnil⟩ := hname.cons
  rw [hnil.nil]
  have hdimension := yields_dimensions_ellipsis (e := ⟨.ellipsis, "...", e⟩) rfl (⟨.ident, "rest", o⟩ :: r)
  have htype := yields_classArray (t := ⟨.ident, "String", t⟩) rfl (endsName_of_ne (by simp)) (by simp)
    hdimension
  have hfinal : ∀ k ∈ [(⟨.finalKw, "final", m⟩ : Token)], modifierKeywords.contains k.kind = true :=
    List.forall_mem_singleton.mpr (by decide : modifierKeywords.contains .finalKw = true)
  exact ⟨_, _, rfl, (by decide : startsParameter .finalKw = true),
    yields_parameter htype rfl hfinal (by decide : startsModifier .ident = false)⟩

/-- The parameters between their parentheses, with a brace behind them. -/
theorem yields_parameters (h : Word.Spelled parameterWords ts) (r : List Token) : ∃ l us o,
    ts ++ r = l :: us ∧ l.kind = .leftParen ∧ o.kind = .leftBrace ∧
      (parametersTail us).Yields [] parameterTrees (o :: r) := by
  obtain ⟨l, _, rfl, hall⟩ := h.cons
  obtain ⟨is, _, rfl, hints, hcomma⟩ := hall.append
  obtain ⟨c, _, rfl, hmore⟩ := hcomma.cons
  obtain ⟨rs, _, rfl, hrest, hclosed⟩ := hmore.append
  obtain ⟨p, _, rfl, hopened⟩ := hclosed.cons
  obtain ⟨o, _, rfl, hnil⟩ := hopened.cons
  rw [hnil.nil]
  obtain ⟨t, us, rfl, ht, hlast⟩ := yields_rest hrest
    (⟨.rightParen, ")", p⟩ :: ⟨.leftBrace, "\x7b", o⟩ :: r)
  obtain ⟨u, vs, rfl, hu, hfirst⟩ := yields_ints hints (⟨.comma, ",", c⟩ :: t ::
    (us ++ ⟨.rightParen, ")", p⟩ :: ⟨.leftBrace, "\x7b", o⟩ :: r))
  have hsecond := yields_parametersTail ht hlast (yields_parametersMore_rightParen rfl _)
  have hboth := yields_parametersTail hu hfirst (yields_parametersMore_comma rfl hsecond)
  exact ⟨⟨.leftParen, "(", l⟩, _, ⟨.leftBrace, "\x7b", o⟩, by simp, rfl, rfl, hboth⟩

def bodyKinds : List Kind := ((totalWords 0 :: statements.map ofText).flatten).map Word.kind

theorem clean_body : (blockTail (tokensOf bodyKinds)).problems = [] ∧
    (blockTail (tokensOf bodyKinds)).rest = [] := by
  decide +kernel

/-- All statements of a method, up to the brace behind them. -/
theorem yields_body (h : Word.Spelled (totalWords number :: statements.map ofText).flatten ts)
    (r : List Token) : ∃ xs bs, (blockTail (ts ++ r)).Yields xs bs r := by
  -- The number changes the text of one token, and statements are read by their kinds alone.
  have hkinds : ts.map Token.kind = bodyKinds := by
    rw [Word.Spelled.kinds h]
    rfl
  have hclean := clean_body
  rw [← hkinds] at hclean
  exact ⟨_, _, (makes_blockTail_of_kinds hclean.1 hclean.2 r).yields⟩

theorem contains_public (start : Nat) :
    ∀ m ∈ [(⟨.publicKw, "public", start⟩ : Token)], modifierKeywords.contains m.kind = true :=
  List.forall_mem_singleton.mpr (by decide : modifierKeywords.contains .publicKw = true)

theorem yields_method (h : Word.Spelled (methodWords number).flatten ts) (r : List Token) :
    ∃ t us b, ts = t :: us ∧ t.kind ≠ .rightBrace ∧ IsMethod number b ∧
      (member t (us ++ r)).Yields [] [b] r := by
  have hlines : Word.Spelled
      (headWords number ++ (totalWords number :: statements.map ofText).flatten) ts := h
  obtain ⟨hs, bs, rfl, hhead, hbody⟩ := hlines.append
  obtain ⟨m, _, rfl, htype⟩ := hhead.cons
  obtain ⟨t, _, rfl, hname⟩ := htype.cons
  obtain ⟨n, ps, rfl, hparameters⟩ := hname.cons
  obtain ⟨xs, cs, hblock⟩ := yields_body hbody r
  obtain ⟨l, us, o, hps, hl, ho, hlisted⟩ := yields_parameters hparameters (bs ++ r)
  let rest : List Token := ⟨.ident, name number, n⟩ :: (ps ++ (bs ++ r))
  have hmodifiers := yields_modifierList (contains_public m) (r := ⟨.intKw, "int", t⟩ :: rest)
    (by decide : startsModifier .intKw = false)
  have hint : Word.Spelled (TypeSyntax.primitive .int 0).words [⟨.intKw, "int", t⟩] := rfl
  have htyped := yields_resultType (t := ⟨.intKw, "int", t⟩) (by decide : startsType .intKw = true)
    (TypeSyntax.yields (r := rest) hint (endsType_of_ne (by simp [rest])))
  refine ⟨⟨.publicKw, "public", m⟩, ⟨.intKw, "int", t⟩ :: ⟨.ident, name number, n⟩ :: (ps ++ bs), _,
    rfl, (by decide : Kind.publicKw ≠ .rightBrace), ⟨.bare .block (Piece.joined xs) cs, rfl, rfl⟩, ?_⟩
  rw [List.cons_append, List.cons_append, List.append_assoc]
  refine yields_member (by decide : startsMember .publicKw = true) hmodifiers htyped ?_
  intro typed htexts hshapes
  have htail := yields_memberTail (n := ⟨.ident, name number, n⟩) rfl hl hlisted ho hblock htexts
  rw [hshapes, ← hps] at htail
  exact htail

/-- The methods of a class body, up to its brace. -/
theorem yields_methods : ∀ {numbers : List Nat} {ts : List Token},
    Word.Spelled ((numbers.flatMap methodWords).flatten ++ [closed]) ts →
      ∃ bs, (membersTail ts).Yields [] bs [] ∧ List.Forall₂ IsMethod numbers bs
  | [], ts, h => by
    obtain ⟨o, _, rfl, hnil⟩ := Word.Spelled.cons h
    rw [hnil.nil]
    exact ⟨[], (upToBrace_membersTail.makes_brace rfl []).yields, .nil⟩
  | number :: numbers, ts, h => by
    rw [List.flatMap_cons, List.flatten_append, List.append_assoc] at h
    obtain ⟨ms, r, rfl, hmethod, hmore⟩ := h.append
    obtain ⟨bs, hbs, hall⟩ := yields_methods hmore
    obtain ⟨t, us, b, rfl, ht, hb, hmember⟩ := yields_method hmethod r
    exact ⟨b :: bs, upToBrace_membersTail.yields_item ht hmember hbs, .cons hb hall⟩

theorem exists_tree (methods : Nat) : ∃ p bs, parse (source methods) = .ok p ∧ p.errors = [] ∧
    p.tree.root.unplaced = tree bs ∧ List.Forall₂ IsMethod (List.range methods) bs := by
  have hall := spelled_source methods
  rw [words, List.flatten_cons, List.flatten_append] at hall
  obtain ⟨hs, ts, htokens, hhead, hmethods⟩ := hall.append
  obtain ⟨m, _, rfl, hclass⟩ := hhead.cons
  obtain ⟨k, _, rfl, hname⟩ := hclass.cons
  obtain ⟨n, _, rfl, hopened⟩ := hname.cons
  obtain ⟨o, _, rfl, hnil⟩ := hopened.cons
  rw [hnil.nil] at htokens
  obtain ⟨bs, hbs, hmethods⟩ := yields_methods hmethods
  have hfile := yields_classDeclarations (contains_public m) (k := ⟨.classKw, "class", k⟩)
    (n := ⟨.ident, "Synthetic", n⟩) (o := ⟨.leftBrace, "\x7b", o⟩) rfl rfl rfl hbs
  obtain ⟨p, hp, he, hroot⟩ := exists_unplaced_of_makes htokens hfile.makes
  rw [hfile.texts, hfile.shapes] at hroot
  exact ⟨p, bs, hp, he, hroot, hmethods⟩

section

variable {t : Tree} {b : Branch}

/-- A parameter whose type ends in `...`. -/
theorem view_rest {v : FormalParameter t}
    (h : t.Looks v.node (parameterTree ["final"] .classType "String" "..." "rest")) :
    FormalParameter.isVarargs v = .ok true := by
  obtain ⟨ty, hty, htype⟩ := h.exists_firstUnder (d := .type) rfl
  obtain ⟨ds, hds, hdims⟩ := htype.exists_firstUnder (d := .only .arrayDimensions) rfl
  obtain ⟨m, _, hm, hnil, hchildren⟩ := List.forall₂_cons_right_iff.mp hdims.forall₂_children
  rw [List.forall₂_nil_right_iff.mp hnil] at hchildren
  let array : ArrayType t := ⟨ty.node, beq_iff_eq.mpr htype.kind_eq⟩
  let dim : ArrayTypeDim t := ⟨m, beq_iff_eq.mpr hm.kind_eq⟩
  have harray : (v.typeNode.bind fun ty => View.of? t (.only .arrayType) ty.node) = some array := by
    rw [show v.typeNode = some ty from hty]
    exact View.of?_eq_some_iff.mpr rfl
  have hdimensions : ArrayType.dimensions array = some ds := hds
  have hlast : ds.lastAs (.only .arrayTypeDim) = .ok dim := by
    have hnode : ds.lastNode = .ok m := by rw [View.lastNode, Tree.lastChild, hchildren]; rfl
    have hview : View.of? t (.only .arrayTypeDim) m = some dim := View.of?_eq_some_iff.mpr rfl
    rw [View.lastAs, hnode]
    change View.expected _ m = _
    rw [View.expected, hview]
  have hdots : ArrayTypeDim.isVarargs dim = true := beq_iff_eq.mpr hm.image_eq
  rw [FormalParameter.isVarargs, harray]
  dsimp only
  rw [ArrayType.isVarargs, hdimensions]
  dsimp only
  rw [hlast]
  exact congrArg Except.ok hdots

/-- What the views show of a generated method. -/
theorem view_method {m : MethodDeclaration t} (h : t.Looks m.node b) (hb : IsMethod number b) :
    (MethodDeclaration.isVoid m = false ∧ MethodDeclaration.isVarargs m = .ok true) ∧
      MethodDeclaration.name m = some (name number) := by
  obtain ⟨⟨k, image, span, children⟩, hblock, rfl⟩ := hb
  cases hblock
  have hvoid : m.child (.only .voidType) = none := h.firstUnder_eq_none rfl
  obtain ⟨ps, hps, hlooks⟩ := h.exists_firstUnder (d := .only .formalParameters) rfl
  have hparameters := hlooks.forall₂_allUnder (.only .formalParameter)
  obtain ⟨v, _, hv, hrest, hall⟩ := List.forall₂_cons_right_iff.mp hparameters
  obtain ⟨w, _, hw, hnil, rfl⟩ := List.forall₂_cons_right_iff.mp hrest
  rw [List.forall₂_nil_right_iff.mp hnil] at hall
  have hlast : (MethodDeclaration.parameters m).getLast? = some w := by
    rw [MethodDeclaration.parameters, show MethodDeclaration.formalParameters m = some ps from hps]
    exact congrArg List.getLast? hall
  refine ⟨⟨?_, ?_⟩, h.image_eq⟩
  · rw [MethodDeclaration.isVoid, hvoid]
    rfl
  · rw [MethodDeclaration.isVarargs, hlast]
    exact view_rest hw

theorem view_methods {numbers : List Nat} {ms : List (MethodDeclaration t)} {bs : List Branch}
    (hms : List.Forall₂ (fun m b => t.Looks m.node b) ms bs) (hbs : List.Forall₂ IsMethod numbers bs) :
    List.Forall₂ (fun m number => (MethodDeclaration.isVoid m = false ∧
      MethodDeclaration.isVarargs m = .ok true) ∧ MethodDeclaration.name m = some (name number))
      ms numbers := by
  induction hms generalizing numbers with
  | nil =>
    rw [List.forall₂_nil_right_iff.mp hbs]
    exact .nil
  | cons hm _ ih =>
    obtain ⟨number, more, hb, hmore, rfl⟩ := List.forall₂_cons_right_iff.mp hbs
    exact .cons (view_method hm hb) (ih hmore)

theorem forall_kind_eq {numbers : List Nat} {bs : List Branch} (h : List.Forall₂ IsMethod numbers bs) :
    ∀ b ∈ bs, b.kind = .methodDeclaration := by
  induction h with
  | nil => simp
  | cons hb _ ih =>
    obtain ⟨block, -, rfl⟩ := hb
    exact List.forall_mem_cons.mpr ⟨rfl, ih⟩

/-- All that stands in the body of the class is a method. -/
theorem view_body {n : NodeId} {numbers : List Nat} {bs : List Branch}
    (h : t.Looks n (.bare .classBody none bs)) (hbs : List.Forall₂ IsMethod numbers bs) :
    (View.allUnder t n .member).map View.node =
      (View.allUnder t n (.only .methodDeclaration)).map View.node ∧
    List.Forall₂ (fun (m : MethodDeclaration t) number => (MethodDeclaration.isVoid m = false ∧
      MethodDeclaration.isVarargs m = .ok true) ∧ MethodDeclaration.name m = some (name number))
      (View.allUnder t n (.only .methodDeclaration)) numbers := by
  have hbranches := forall_kind_eq hbs
  have hkind : ∀ m ∈ t.children n, t.kind m = .methodDeclaration :=
    h.forall_children (P := (· = .methodDeclaration)) hbranches
  have hmember : ∀ m ∈ t.children n, Category.member.contains (t.kind m) = true :=
    fun m hm => by rw [hkind m hm]; decide
  have honly : ∀ m ∈ t.children n, (Category.only .methodDeclaration).contains (t.kind m) = true :=
    fun m hm => by rw [hkind m hm]; decide
  have hfilter : (Branch.bare .classBody none bs).children.filter
      (fun b => (Category.only .methodDeclaration).contains b.kind) = bs :=
    List.filter_eq_self.mpr fun b hb => by rw [hbranches b hb]; decide
  have hmethods := h.forall₂_allUnder (.only .methodDeclaration)
  rw [hfilter] at hmethods
  exact ⟨(View.map_allUnder id hmember).trans (View.map_allUnder id honly).symm,
    view_methods hmethods hbs⟩

end

/-- A generated source is read without an error as one class, whose members are the generated methods in
order. -/
theorem parse_source (methods : Nat) : ∃ p, parse (source methods) = .ok p ∧ p.errors = [] ∧
    ∃ (u : CompilationUnit p.tree) (c : ClassDeclaration p.tree) (b : ClassBody p.tree),
      u.node = 0 ∧ CompilationUnit.classes u = [c] ∧ ClassDeclaration.name c = some "Synthetic" ∧
        ClassDeclaration.body c = some b ∧
        (ClassDeclaration.members c).map View.node = (ClassBody.methods b).map View.node ∧
        (ClassBody.methods b).map MethodDeclaration.name =
          (List.range methods).map (fun number => some ("method" ++ toString number)) ∧
        ∀ m ∈ ClassBody.methods b,
          MethodDeclaration.isVoid m = false ∧ MethodDeclaration.isVarargs m = .ok true := by
  obtain ⟨p, bs, hp, he, hroot, hbs⟩ := exists_tree methods
  have hunit : p.tree.Looks 0 (tree bs) := hroot ▸ p.tree.looks_root
  let u : CompilationUnit p.tree := ⟨0, beq_iff_eq.mpr hunit.kind_eq⟩
  have hclasses := hunit.forall₂_allUnder (.only .classDeclaration)
  obtain ⟨c, _, hc, hnil, hall⟩ := List.forall₂_cons_right_iff.mp hclasses
  rw [List.forall₂_nil_right_iff.mp hnil] at hall
  obtain ⟨b, hb, hbody⟩ := hc.exists_firstUnder (d := .only .classBody) rfl
  obtain ⟨hmembers, hmethods⟩ := view_body hbody hbs
  obtain ⟨hshown, hnames⟩ := (List.forall₂_and_left _ _).mp hmethods
  refine ⟨p, hp, he, u, c, b, rfl, hall, hc.image_eq, hb, ?_, ?_, hshown⟩
  · rw [ClassDeclaration.members, show ClassDeclaration.body c = some b from hb]
    exact hmembers
  · rw [← List.forall₂_eq_eq_eq, List.forall₂_map_left_iff, List.forall₂_map_right_iff]
    exact hnames

end JavaSyntax.Sample
