import BarrelAsm.Formula.Lexeme

/-! Formulas as trees, and their grammar. -/
namespace BarrelAsm.Formula

inductive UnaryOp where
  | plus | minus | complement
deriving DecidableEq, Repr

inductive CompareOp where
  | eq | ne | lt | gt | le | ge
deriving DecidableEq, Repr

inductive ArithOp where
  | or | xor | and | shiftLeft | shiftRight | add | sub | mul | div | floorDiv | mod
deriving DecidableEq, Repr

inductive BinaryOp where
  | either
  | both
  | compare (op : CompareOp)
  | arith (op : ArithOp)
deriving DecidableEq, Repr

inductive Expr where
  | int (value : Nat)
  | float (value : Float)
  | string (text : Text)
  | name (text : Text)
  | tuple (items : List Expr)
  | list (items : List Expr)
  /-- Keys and values in turn. -/
  | dict (items : List Expr)
  | negation (x : Expr)
  | unary (op : UnaryOp) (x : Expr)
  | binary (op : BinaryOp) (x y : Expr)
  | choice (condition ifTrue ifFalse : Expr)
  /-- Each argument is given by its place or by a name. -/
  | call (function : Expr) (args : List Expr) (names : List (Option Text))

inductive Statement where
  | assign (target value : Expr)
  | augment (target value : Expr)
  | eval (value : Expr)
  | pass
  /-- A statement that has a place only inside others. -/
  | misplaced

/-- The operators of a level of precedence; `not` is level 2 and has no operators. -/
def operatorAt? (level : Nat) (t : Text) : Option BinaryOp :=
  let table : List (String × BinaryOp) :=
    match level with
    | 0 => [("or", .either)]
    | 1 => [("and", .both)]
    | 3 =>
      [("==", .compare .eq), ("!=", .compare .ne), ("<", .compare .lt), (">", .compare .gt),
        ("<=", .compare .le), (">=", .compare .ge)]
    | 4 => [("|", .arith .or)]
    | 5 => [("^", .arith .xor)]
    | 6 => [("&", .arith .and)]
    | 7 => [("<<", .arith .shiftLeft), (">>", .arith .shiftRight)]
    | 8 => [("+", .arith .add), ("-", .arith .sub)]
    | 9 =>
      [("*", .arith .mul), ("/", .arith .div), ("//", .arith .floorDiv), ("%", .arith .mod)]
    | _ => []
  (table.find? fun e => Text.ofString e.1 == t).map (·.2)

def unaryOp? (t : Text) : Option UnaryOp :=
  if t = ("-" : Text) then some .minus
  else if t = ("+" : Text) then some .plus
  else if t = ("~" : Text) then some .complement
  else none

/-- The rest of a list of lexemes after at least one of them. -/
abbrev Rest (ts : List Lexeme) := { r : List Lexeme // r.length < ts.length }

abbrev RestLe (ts : List Lexeme) := { r : List Lexeme // r.length ≤ ts.length }

def mark? (s : String) (ts : List Lexeme) : Option (Rest ts) :=
  match ts with
  | .mark t :: r => if t = Text.ofString s then some ⟨r, by simp⟩ else none
  | _ => none

def named? (ts : List Lexeme) : Option (Text × Rest ts) :=
  match ts with
  | .name n :: .mark t :: r =>
    if t = ("=" : Text) then some (n, ⟨r, by simp only [List.length_cons]; omega⟩) else none
  | _ => none

def endsItems : List Lexeme → Bool
  | [] => true
  | .newline :: _ => true
  | .mark t :: _ =>
    ["=", "\x7d", "]", ")", ";"].any fun s => Text.ofString s == t
  | _ => false

mutual

def test? (ts : List Lexeme) : Option (Expr × Rest ts) :=
  match level? 0 ts with
  | none => none
  | some (x, r) =>
    match mark? "if" r.1 with
    | none => some (x, r)
    | some s => do
      let (c, u) ← level? 0 s.1
      let v ← mark? "else" u.1
      let (y, w) ← test? v.1
      return (.choice c x y, ⟨w.1, by
        have := r.2; have := s.2; have := u.2; have := v.2; have := w.2; omega⟩)
termination_by ts.length * 16 + 15
decreasing_by
  · omega
  · have := r.2; have := s.2; omega
  · have := r.2; have := s.2; have := u.2; have := v.2; omega

def level? (n : Nat) (ts : List Lexeme) : Option (Expr × Rest ts) :=
  if n < 10 then
    match (if n = 2 then mark? "not" ts else none) with
    | some r => do
      let (x, s) ← level? n r.1
      return (.negation x, ⟨s.1, by have := r.2; have := s.2; omega⟩)
    | none => do
      let (x, r) ← level? (n + 1) ts
      let (y, s) ← operators? n x true r.1
      return (y, ⟨s.1, by have := r.2; have := s.2; omega⟩)
  else operand? ts
termination_by ts.length * 16 + 4 + (10 - n)
decreasing_by
  · have := r.2; omega
  · omega
  · have := r.2; omega
  · omega

/-- The operators of a level that follow an expression. Comparisons do not associate. -/
def operators? (n : Nat) (x : Expr) (first : Bool) (ts : List Lexeme) :
    Option (Expr × RestLe ts) :=
  match ts with
  | .mark t :: r =>
    match operatorAt? n t with
    | none => some (x, ⟨.mark t :: r, by simp⟩)
    | some op =>
      if n = 3 && !first then none
      else do
        let (y, s) ← level? (n + 1) r
        let (z, u) ← operators? n (.binary op x y) false s.1
        return (z, ⟨u.1, by have := s.2; have := u.2; simp only [List.length_cons]; omega⟩)
  | ts => some (x, ⟨ts, Nat.le_refl _⟩)
termination_by ts.length * 16
decreasing_by
  · simp only [List.length_cons]; omega
  · have := s.2; simp only [List.length_cons]; omega

def operand? (ts : List Lexeme) : Option (Expr × Rest ts) := do
  let (x, r) ← primary? ts
  let (y, s) ← calls? x r.1
  return (y, ⟨s.1, by have := r.2; have := s.2; omega⟩)
termination_by ts.length * 16 + 3
decreasing_by
  · omega
  · have := r.2; omega

def calls? (f : Expr) (ts : List Lexeme) : Option (Expr × RestLe ts) :=
  match mark? "(" ts with
  | none => some (f, ⟨ts, Nat.le_refl _⟩)
  | some r => do
    let (args, names, s) ← arguments? r.1
    let (x, u) ← calls? (.call f args names) s.1
    return (x, ⟨u.1, by have := r.2; have := s.2; have := u.2; omega⟩)
termination_by ts.length * 16 + 2
decreasing_by
  · have := r.2; omega
  · have := r.2; have := s.2; omega

def arguments? (ts : List Lexeme) : Option (List Expr × List (Option Text) × Rest ts) :=
  match mark? ")" ts with
  | some r => some ([], [], r)
  | none => do
    let (x, n, r) ← argument? ts
    match mark? ")" r.1 with
    | some s => return ([x], [n], ⟨s.1, by have := r.2; have := s.2; omega⟩)
    | none =>
      let s ← mark? "," r.1
      let (xs, ns, u) ← arguments? s.1
      return (x :: xs, n :: ns, ⟨u.1, by have := r.2; have := s.2; have := u.2; omega⟩)
termination_by ts.length * 16 + 17
decreasing_by
  · omega
  · have := r.2; have := s.2; omega

def argument? (ts : List Lexeme) : Option (Expr × Option Text × Rest ts) :=
  match named? ts with
  | some (n, r) => do
    let (x, s) ← test? r.1
    return (x, some n, ⟨s.1, by have := r.2; have := s.2; omega⟩)
  | none => do
    let (x, r) ← test? ts
    if (mark? "=" r.1).isSome then none else return (x, none, r)
termination_by ts.length * 16 + 16
decreasing_by
  · have := r.2; omega
  · omega

def primary? (ts : List Lexeme) : Option (Expr × Rest ts) :=
  match ts with
  | [] => none
  | .newline :: _ => none
  | .int v :: r => some (.int v, ⟨r, by simp⟩)
  | .float v :: r => some (.float v, ⟨r, by simp⟩)
  | .string s :: r => some (.string s, ⟨r, by simp⟩)
  | .name n :: r => some (.name n, ⟨r, by simp⟩)
  | .mark t :: r =>
    match unaryOp? t with
    | some op => do
      let (x, s) ← operand? r
      return (.unary op x, ⟨s.1, by have := s.2; simp only [List.length_cons]; omega⟩)
    | none =>
      if t = ("(" : Text) then
        match mark? ")" r with
        | some s => some (.tuple [], ⟨s.1, by have := s.2; simp only [List.length_cons]; omega⟩)
        | none => do
          let (x, s) ← exprs? true r
          let u ← mark? ")" s.1
          return (x, ⟨u.1, by have := s.2; have := u.2; simp only [List.length_cons]; omega⟩)
      else if t = ("[" : Text) then
        match mark? "]" r with
        | some s => some (.list [], ⟨s.1, by have := s.2; simp only [List.length_cons]; omega⟩)
        | none => do
          let (x, s) ← test? r
          let (xs, u) ← items? true s.1
          let v ← mark? "]" u.1
          return (.list (x :: xs), ⟨v.1, by
            have := s.2; have := u.2; have := v.2; simp only [List.length_cons]; omega⟩)
      else if t = ("\x7b" : Text) then do
        let (xs, s) ← entries? r
        return (.dict xs, ⟨s.1, by have := s.2; simp only [List.length_cons]; omega⟩)
      else none
termination_by ts.length * 16 + 1
decreasing_by
  all_goals simp only [List.length_cons]
  · omega
  · omega
  · omega
  · have := s.2; omega
  · omega

/-- An expression, or several with commas between them, which make a tuple. -/
def exprs? (trailing : Bool) (ts : List Lexeme) : Option (Expr × Rest ts) := do
  let (x, r) ← test? ts
  match mark? "," r.1 with
  | none => return (x, r)
  | some _ =>
    let (xs, s) ← items? trailing r.1
    return (.tuple (x :: xs), ⟨s.1, by have := r.2; have := s.2; omega⟩)
termination_by ts.length * 16 + 16
decreasing_by
  · omega
  · have := r.2; omega

/-- Further expressions, each behind a comma; a comma may also end them if `trailing` says so. -/
def items? (trailing : Bool) (ts : List Lexeme) : Option (List Expr × RestLe ts) :=
  match mark? "," ts with
  | none => some ([], ⟨ts, Nat.le_refl _⟩)
  | some r =>
    if endsItems r.1 then
      if trailing then some ([], ⟨r.1, by have := r.2; omega⟩) else none
    else do
      let (x, s) ← test? r.1
      let (xs, u) ← items? trailing s.1
      return (x :: xs, ⟨u.1, by have := r.2; have := s.2; have := u.2; omega⟩)
termination_by ts.length * 16
decreasing_by
  · have := r.2; omega
  · have := r.2; have := s.2; omega

def entries? (ts : List Lexeme) : Option (List Expr × Rest ts) :=
  match mark? "\x7d" ts with
  | some r => some ([], r)
  | none => do
    let (k, r) ← test? ts
    let s ← mark? ":" r.1
    let (v, u) ← test? s.1
    match mark? "\x7d" u.1 with
    | some w =>
      return ([k, v], ⟨w.1, by
        have := r.2; have := s.2; have := u.2; have := w.2; omega⟩)
    | none =>
      let w ← mark? "," u.1
      let (xs, z) ← entries? w.1
      return (k :: v :: xs, ⟨z.1, by
        have := r.2; have := s.2; have := u.2; have := w.2; have := z.2; omega⟩)
termination_by ts.length * 16 + 16
decreasing_by
  · omega
  · have := r.2; have := s.2; omega
  · have := r.2; have := s.2; have := u.2; have := w.2; omega

end

def augments (t : Text) : Bool :=
  ["+=", "-=", "*=", "/=", "//=", "%=", "&=", "|=", "^=", "<<=", ">>="].any
    fun s => Text.ofString s == t

def endsStatement : List Lexeme → Bool
  | [] => true
  | .newline :: _ => true
  | .mark t :: _ => t = (";" : Text)
  | _ => false

def branch? (ts : List Lexeme) : Option (Statement × Rest ts) :=
  match mark? "pass" ts with
  | some r => some (.pass, r)
  | none => ((mark? "break" ts).or (mark? "continue" ts)).map fun r => (.misplaced, r)

def small? (ts : List Lexeme) : Option (Statement × Rest ts) :=
  match branch? ts, mark? "return" ts with
  | some found, _ => some found
  | none, some r =>
    if endsStatement r.1 then some (.misplaced, r)
    else (exprs? false r.1).map fun (_, s) =>
      (.misplaced, ⟨s.1, by have := r.2; have := s.2; omega⟩)
  | none, none => do
    let (x, r) ← exprs? false ts
    match h : r.1 with
    | .mark t :: s =>
      let further : Option (Expr × Rest ts) := do
        let (y, u) ← exprs? false s
        return (y, ⟨u.1, by
          have := r.2; have := u.2; simp only [h, List.length_cons] at *; omega⟩)
      if t = ("=" : Text) then further.map fun (y, u) => (.assign x y, u)
      else if augments t then further.map fun (y, u) => (.augment x y, u)
      else return (.eval x, r)
    | _ => return (.eval x, r)

def statements? (ts : List Lexeme) : Option (List Statement) :=
  match ts with
  | [] => some []
  | .newline :: r => statements? r
  | ts@(_ :: _) =>
    match small? ts with
    | none => none
    | some (x, r) =>
      match mark? ";" r.1, r with
      | some s, _ => (statements? s.1).map (x :: ·)
      | none, ⟨[], _⟩ => some [x]
      | none, ⟨.newline :: s, _⟩ => (statements? s).map (x :: ·)
      | none, _ => none
termination_by ts.length
decreasing_by
  · simp
  · have := r.2; have := s.2; simp_all only [List.length_cons]; omega
  · simp_all only [List.length_cons]; omega

end BarrelAsm.Formula
