import Oberon.Proofs.Aliases

/-!
# What a table of types remembers

A table that remembers types gives the same answers as one that does not. The plain table looks a
name up in the innermost scope that declares it and reads the definition there, every time anew; it
stops at a name that is not declared, or at one that it is reading already, in the same scope.

Whatever happened to a table before, each type that a scope remembers is the one that its name
unfolds to now (`AreTruthful`): a declaration drops what its scope remembers, and scopes further
out do not depend on it. The names being read all lead to where the resolution is, so none of them
can be on the way of a type that was found before (`LeadTo`).
-/

namespace Oberon

open Code

/-! ## A table without memory -/

/-- The definitions of one section; the first one of a name counts. -/
abbrev Definitions := List (String × TypeExpr)

/-- The definition of a name in the innermost of the `Definitions` that has one, with these and
those around them. -/
def findDefinition (name : String) : List Definitions → Option (TypeExpr × List Definitions)
  | [] => none
  | scope :: outer =>
    match scope.lookup name with
    | some definition => some (definition, scope :: outer)
    | none => findDefinition name outer

/-- The names of all definitions, each with the number of scopes it sees. -/
def keysOf : List Definitions → List (Nat × String)
  | [] => []
  | scope :: outer => scope.map (fun d => (outer.length + 1, d.1)) ++ keysOf outer

/-- The number of `keysOf` definitions that are not being read. -/
def unread (scopes : List Definitions) (reading : List (Nat × String)) : Nat :=
  ((keysOf scopes).filter fun key => !reading.contains key).length

section

variable {name : String} {scopes visible : List Definitions} {definition : TypeExpr}

/-- The scope in which `findDefinition` ends has the definition, and those in front of it are passed
over. -/
theorem findDefinition_eq_some (h : findDefinition name scopes = some (definition, visible)) :
    ∃ inner scope outer, visible = scope :: outer ∧ scopes = inner ++ visible
      ∧ scope.lookup name = some definition := by
  induction scopes with
  | nil => exact nomatch h
  | cons first rest ih =>
    rw [findDefinition] at h
    split at h
    · rename_i hlookup
      obtain ⟨rfl, rfl⟩ := Prod.mk.inj (Option.some.inj h)
      exact ⟨[], first, rest, rfl, rfl, hlookup⟩
    · obtain ⟨inner, scope, outer, hvisible, hrest, hlookup⟩ := ih h
      exact ⟨first :: inner, scope, outer, hvisible, congrArg (first :: ·) hrest, hlookup⟩

theorem findDefinition_suffix (h : findDefinition name scopes = some (definition, visible)) :
    visible <:+ scopes := by
  obtain ⟨inner, scope, outer, -, hscopes, -⟩ := findDefinition_eq_some h
  exact ⟨inner, hscopes.symm⟩

/-- `findDefinition` finds a definition again from the scope that has it. -/
theorem findDefinition_visible (h : findDefinition name scopes = some (definition, visible)) :
    findDefinition name visible = some (definition, visible) := by
  obtain ⟨inner, scope, outer, rfl, -, hlookup⟩ := findDefinition_eq_some h
  rw [findDefinition, hlookup]

/-- A definition that `findDefinition` finds is one of `keysOf`. -/
theorem mem_keysOf (h : findDefinition name scopes = some (definition, visible)) :
    (visible.length, name) ∈ keysOf visible := by
  obtain ⟨inner, scope, outer, rfl, -, hlookup⟩ := findDefinition_eq_some h
  apply List.mem_append_left
  exact List.mem_map_of_mem (mem_of_lookup hlookup)

/-- `keysOf` some of the scopes, from one of them on, are among those of all. -/
theorem keysOf_sublist (h : visible <:+ scopes) : (keysOf visible).Sublist (keysOf scopes) := by
  induction scopes with
  | nil =>
    obtain rfl := List.suffix_nil.mp h
    exact .refl _
  | cons scope outer ih =>
    rcases List.suffix_cons_iff.mp h with rfl | h
    · exact .refl _
    · exact (ih h).trans (List.sublist_append_right _ _)

/-- Reading one more definition leaves fewer `unread`. -/
theorem unread_lt (h : findDefinition name scopes = some (definition, visible))
    {reading : List (Nat × String)} (hnew : (visible.length, name) ∉ reading) :
    unread visible ((visible.length, name) :: reading) < unread scopes reading := by
  have hrest : ((keysOf visible).filter fun key =>
      !((visible.length, name) :: reading).contains key)
        = ((keysOf visible).filter fun key => !reading.contains key).filter
          (· ≠ (visible.length, name)) := by
    rw [List.filter_filter]
    apply List.filter_congr
    intro key _
    simp [Bool.not_or]
  have hfewer : unread visible ((visible.length, name) :: reading) < unread visible reading := by
    rw [unread, hrest]
    apply List.length_filter_lt_length_iff_exists.mpr
    refine ⟨_, List.mem_filter.mpr ⟨mem_keysOf h, ?_⟩, by simp⟩
    simpa using hnew
  have hle : unread visible reading ≤ unread scopes reading :=
    ((keysOf_sublist (findDefinition_suffix h)).filter _).length_le
  omega

end

/-- The type that a type expression stands for, when the definitions of `reading` are being read.
A definition is read in its own scope. -/
def TypeExpr.resolveAfresh (dimension : Expr → Nat) (scopes : List Definitions)
    (reading : List (Nat × String)) : TypeExpr → Except TypeError Ty
  | .integer => .ok .integer
  | .real => .ok .real
  | .boolean => .ok .boolean
  | .string => .ok .string
  | .named name =>
    match _hfind : findDefinition name scopes with
    | none => .error (.undefined name)
    | some (definition, visible) =>
      if _hnew : (visible.length, name) ∈ reading then .error (.cyclic name)
      else definition.resolveAfresh dimension visible ((visible.length, name) :: reading)
  | .array dimensions element =>
    (element.resolveAfresh dimension scopes reading).map (.arrayOf (dimensions.map dimension))
termination_by type => (unread scopes reading, type)
decreasing_by
  · exact Prod.Lex.left _ _ (unread_lt _hfind _hnew)
  · apply Prod.Lex.right
    show sizeOf element < sizeOf (TypeExpr.array dimensions element)
    rw [TypeExpr.array.sizeOf_spec]
    omega

section

variable {dimension : Expr → Nat} {name : String} {scopes visible : List Definitions}
  {reading : List (Nat × String)} {definition : TypeExpr}

/-- `resolveAfresh` of a name, by cases of what `findDefinition` finds. -/
theorem resolveAfresh_eq_match :
    (TypeExpr.named name).resolveAfresh dimension scopes reading
      = match findDefinition name scopes with
        | none => .error (.undefined name)
        | some (definition, visible) =>
          if (visible.length, name) ∈ reading then .error (.cyclic name)
          else definition.resolveAfresh dimension visible ((visible.length, name) :: reading) := by
  rw [TypeExpr.resolveAfresh]
  split <;> rename_i hfind <;> rw [hfind]
  rfl

theorem resolveAfresh_undefined (h : findDefinition name scopes = none) :
    (TypeExpr.named name).resolveAfresh dimension scopes reading = .error (.undefined name) := by
  rw [resolveAfresh_eq_match, h]

theorem resolveAfresh_cyclic (h : findDefinition name scopes = some (definition, visible))
    (hmem : (visible.length, name) ∈ reading) :
    (TypeExpr.named name).resolveAfresh dimension scopes reading = .error (.cyclic name) := by
  rw [resolveAfresh_eq_match, h]
  exact if_pos hmem

theorem resolveAfresh_named (h : findDefinition name scopes = some (definition, visible))
    (hnew : (visible.length, name) ∉ reading) :
    (TypeExpr.named name).resolveAfresh dimension scopes reading
      = definition.resolveAfresh dimension visible ((visible.length, name) :: reading) := by
  rw [resolveAfresh_eq_match, h]
  exact if_neg hnew

end

/-- Scopes of type names that remember nothing, the innermost first. -/
structure PlainTable where
  scopes : List Definitions := []

namespace PlainTable

/-- Opens a scope. -/
def push (t : PlainTable) : PlainTable :=
  ⟨[] :: t.scopes⟩

/-- Closes the innermost scope, if there is one. -/
def pop (t : PlainTable) : PlainTable :=
  ⟨t.scopes.tail⟩

/-- Declares a type in the innermost scope; a table without scopes gets one. -/
def declare (t : PlainTable) (name : String) (definition : TypeExpr) : PlainTable :=
  ⟨((name, definition) :: t.scopes.headD []) :: t.scopes.tail⟩

/-- Resolves a type from the innermost scope, by `resolveAfresh`. -/
def resolve (t : PlainTable) (dimension : Expr → Nat) (type : TypeExpr) : Except TypeError Ty :=
  type.resolveAfresh dimension t.scopes []

end PlainTable

/-! ## Unfolding -/

/-- A type expression that unfolds to a type, through `n` names. -/
inductive TypeExpr.Unfolds (dimension : Expr → Nat) :
    Nat → List Definitions → TypeExpr → Ty → Prop
  | integer {scopes : List Definitions} : Unfolds dimension 0 scopes .integer .integer
  | real {scopes : List Definitions} : Unfolds dimension 0 scopes .real .real
  | boolean {scopes : List Definitions} : Unfolds dimension 0 scopes .boolean .boolean
  | string {scopes : List Definitions} : Unfolds dimension 0 scopes .string .string
  | named {n : Nat} {scopes visible : List Definitions} {name : String} {definition : TypeExpr}
    {ty : Ty} (hfind : findDefinition name scopes = some (definition, visible))
    (h : Unfolds dimension n visible definition ty) :
    Unfolds dimension (n + 1) scopes (.named name) ty
  | array {n : Nat} {scopes : List Definitions} {dimensions : List Expr} {element : TypeExpr}
    {ty : Ty} (h : Unfolds dimension n scopes element ty) :
    Unfolds dimension n scopes (.array dimensions element)
      (.arrayOf (dimensions.map dimension) ty)

section

variable {dimension : Expr → Nat} {scopes visible all : List Definitions}
  {reading : List (Nat × String)} {type : TypeExpr} {ty : Ty} {n : Nat}

/-- A type expression `Unfolds` in one way at most. -/
theorem TypeExpr.Unfolds.unique {m : Nat} {ty' : Ty} (h : type.Unfolds dimension n scopes ty)
    (h' : type.Unfolds dimension m scopes ty') : n = m ∧ ty = ty' := by
  induction h generalizing m ty' with
  | integer => cases h'; exact ⟨rfl, rfl⟩
  | real => cases h'; exact ⟨rfl, rfl⟩
  | boolean => cases h'; exact ⟨rfl, rfl⟩
  | string => cases h'; exact ⟨rfl, rfl⟩
  | named hfind _ ih =>
    cases h' with
    | named hfind' hdef' =>
      obtain ⟨rfl, rfl⟩ := Prod.mk.inj (Option.some.inj (hfind.symm.trans hfind'))
      obtain ⟨rfl, rfl⟩ := ih hdef'
      exact ⟨rfl, rfl⟩
  | array _ ih =>
    cases h' with
    | array helement' =>
      obtain ⟨rfl, rfl⟩ := ih helement'
      exact ⟨rfl, rfl⟩

/-- A name `Unfolds` from inside as it does in the scope that declares it. -/
theorem TypeExpr.Unfolds.of_visible {name : String} {definition : TypeExpr}
    (hfind : findDefinition name scopes = some (definition, visible))
    (h : (TypeExpr.named name).Unfolds dimension n visible ty) :
    (TypeExpr.named name).Unfolds dimension n scopes ty := by
  cases h with
  | named hfind' hdef =>
    rw [findDefinition_visible hfind] at hfind'
    obtain ⟨rfl, rfl⟩ := Prod.mk.inj (Option.some.inj hfind')
    exact .named hfind hdef

/-- What `resolveAfresh` finds is what the expression `Unfolds` to. -/
theorem TypeExpr.exists_unfolds (h : type.resolveAfresh dimension scopes reading = .ok ty) :
    ∃ n, type.Unfolds dimension n scopes ty := by
  fun_induction TypeExpr.resolveAfresh dimension scopes reading type generalizing ty with
  | case1 => exact Except.ok.inj h ▸ ⟨0, .integer⟩
  | case2 => exact Except.ok.inj h ▸ ⟨0, .real⟩
  | case3 => exact Except.ok.inj h ▸ ⟨0, .boolean⟩
  | case4 => exact Except.ok.inj h ▸ ⟨0, .string⟩
  | case5 => exact nomatch h
  | case6 => exact nomatch h
  | case7 scopes reading name definition visible hfind hnew ih =>
    obtain ⟨n, hn⟩ := ih h
    exact ⟨n + 1, .named hfind hn⟩
  | case8 scopes reading dimensions element ih =>
    cases helement : element.resolveAfresh dimension scopes reading with
    | error e =>
      rw [helement] at h
      exact nomatch h
    | ok inner =>
      rw [helement] at h
      obtain rfl := Except.ok.inj h
      obtain ⟨n, hn⟩ := ih helement
      exact ⟨n, .array hn⟩

/-- The names being read all lead to a type expression: if it `Unfolds` to anything, so does each of
them, through more names. -/
def LeadTo (dimension : Expr → Nat) (all : List Definitions) (reading : List (Nat × String))
    (scopes : List Definitions) (type : TypeExpr) : Prop :=
  ∀ key ∈ reading, ∀ n ty, type.Unfolds dimension n scopes ty →
    ∃ m visible ty', n < m ∧ visible <:+ all ∧ visible.length = key.1
      ∧ (TypeExpr.named key.2).Unfolds dimension m visible ty'

/-- If the names that are being read `LeadTo` a name, they lead to its definition, and so does the
name itself. -/
theorem LeadTo.definition {name : String} {definition : TypeExpr}
    (h : LeadTo dimension all reading scopes (.named name)) (hall : scopes <:+ all)
    (hfind : findDefinition name scopes = some (definition, visible)) :
    LeadTo dimension all ((visible.length, name) :: reading) visible definition := by
  intro key hkey n ty hn
  rcases List.mem_cons.mp hkey with rfl | hkey
  · refine ⟨n + 1, visible, ty, by omega, (findDefinition_suffix hfind).trans hall, rfl, ?_⟩
    exact .named (findDefinition_visible hfind) hn
  · obtain ⟨m, outer, ty', hm, hrest⟩ := h key hkey (n + 1) ty (.named hfind hn)
    exact ⟨m, outer, ty', by omega, hrest⟩

theorem LeadTo.element {dimensions : List Expr} {element : TypeExpr}
    (h : LeadTo dimension all reading scopes (.array dimensions element)) :
    LeadTo dimension all reading scopes element := by
  intro key hkey n ty hn
  exact h key hkey n _ (.array hn)

/-- What an expression `Unfolds` to is found, although names are being read: to come back to one of
them, which leads here through more names, it would have to unfold in two ways. -/
theorem TypeExpr.Unfolds.resolveAfresh_eq (h : type.Unfolds dimension n scopes ty)
    (hall : scopes <:+ all) (hlead : LeadTo dimension all reading scopes type) :
    type.resolveAfresh dimension scopes reading = .ok ty := by
  induction h generalizing reading with
  | integer => rw [resolveAfresh]
  | real => rw [resolveAfresh]
  | boolean => rw [resolveAfresh]
  | string => rw [resolveAfresh]
  | @named n scopes visible name definition ty hfind hdef ih =>
    have hvisible : visible <:+ all := (findDefinition_suffix hfind).trans hall
    -- a name that is being read unfolds through more names than this one, which it would be
    have hnew : (visible.length, name) ∉ reading := by
      intro hmem
      obtain ⟨m, outer, ty', hm, houter, hlength, hagain⟩ :=
        hlead _ hmem (n + 1) ty (.named hfind hdef)
      obtain rfl : outer = visible :=
        (List.suffix_of_suffix_length_le houter hvisible hlength.le).eq_of_length hlength
      have hhere := TypeExpr.Unfolds.named (findDefinition_visible hfind) hdef
      have heq := (hhere.unique hagain).1
      omega
    rw [resolveAfresh_named hfind hnew]
    exact ih hvisible (hlead.definition hall hfind)
  | array _ ih => rw [resolveAfresh, ih hall hlead.element]; rfl

end

/-! ## Memory -/

/-- Scopes in which every type remembered is the one that its name `Unfolds` to. -/
def AreTruthful (dimension : Expr → Nat) : List TypeScope → Prop
  | [] => True
  | scope :: outer =>
    (∀ x ∈ scope.resolved, ∃ n,
      (TypeExpr.named x.1).Unfolds dimension n ((scope :: outer).map (·.declared)) x.2)
    ∧ AreTruthful dimension outer

namespace AreTruthful

variable {dimension : Expr → Nat} {inner visible : List TypeScope}

theorem of_append (h : AreTruthful dimension (inner ++ visible)) :
    AreTruthful dimension visible := by
  induction inner with
  | nil => exact h
  | cons scope rest ih => exact ih h.2

/-- Scopes go on to be `AreTruthful` when those around them remember something else that is true. -/
theorem put_back {others : List TypeScope} (h : AreTruthful dimension (inner ++ visible))
    (hdeclared : others.map (·.declared) = visible.map (·.declared))
    (hothers : AreTruthful dimension others) : AreTruthful dimension (inner ++ others) := by
  induction inner with
  | nil => exact hothers
  | cons scope rest ih =>
    obtain ⟨hscope, hrest⟩ := h
    refine ⟨fun x hx => ?_, ih hrest⟩
    obtain ⟨n, hn⟩ := hscope x hx
    refine ⟨n, ?_⟩
    have heq : (scope :: (rest ++ others)).map (·.declared)
        = (scope :: (rest ++ visible)).map (·.declared) := by
      simp [hdeclared]
    exact heq ▸ hn

end AreTruthful

/-! ## Resolution -/

section

variable {scopes outer : List TypeScope} {scope : TypeScope} {name : String}

/-- Where scopes are split for a name, the first one that is left declares it, and `findDefinition`
finds it there. -/
theorem findDefinition_of_drop
    (h : scopes.drop (scopes.takeWhile fun s => (s.declared.lookup name).isNone).length
      = scope :: outer) :
    ∃ definition, scope.declared.lookup name = some definition
      ∧ findDefinition name (scopes.map (·.declared))
        = some (definition, (scope :: outer).map (·.declared)) := by
  induction scopes with
  | nil => exact nomatch h
  | cons first rest ih =>
    rw [List.map_cons, findDefinition]
    cases hlookup : first.declared.lookup name with
    | none =>
      rw [List.takeWhile_cons_of_pos (by simp [hlookup])] at h
      exact ih h
    | some definition =>
      rw [List.takeWhile_cons_of_neg (by simp [hlookup])] at h
      obtain ⟨rfl, rfl⟩ := List.cons.inj h
      exact ⟨definition, hlookup, rfl⟩

theorem findDefinition_of_drop_nil
    (h : scopes.drop (scopes.takeWhile fun s => (s.declared.lookup name).isNone).length = []) :
    findDefinition name (scopes.map (·.declared)) = none := by
  induction scopes with
  | nil => rfl
  | cons first rest ih =>
    rw [List.map_cons, findDefinition]
    cases hlookup : first.declared.lookup name with
    | none =>
      rw [List.takeWhile_cons_of_pos (by simp [hlookup])] at h
      exact ih h
    | some definition =>
      rw [List.takeWhile_cons_of_neg (by simp [hlookup])] at h
      exact nomatch h

end

/-- A resolution of some scopes whose result is `answer`: it leaves truthful scopes with the same
definitions behind, and the names being read are the same as before. -/
structure Resolution.Answers (dimension : Expr → Nat) (scopes : List TypeScope)
    (resolving : List (Nat × String)) (answer : Except TypeError Ty) (r : Resolution) : Prop where
  result : r.result = answer
  truthful : AreTruthful dimension r.scopes
  declared : r.scopes.map (·.declared) = scopes.map (·.declared)
  resolving : r.resolving = resolving

section

variable {dimension : Expr → Nat} {scopes : List TypeScope} {all : List Definitions}
  {resolving : List (Nat × String)}

/-- `TypeExpr.resolve` gives the plain answer if it does so for the names in the type. -/
theorem TypeExpr.resolve_answers {named : String → Resolution} {type : TypeExpr}
    (hscopes : AreTruthful dimension scopes)
    (hlead : LeadTo dimension all resolving (scopes.map (·.declared)) type)
    (hnamed : ∀ name, LeadTo dimension all resolving (scopes.map (·.declared)) (.named name) →
      (named name).Answers dimension scopes resolving
        ((TypeExpr.named name).resolveAfresh dimension (scopes.map (·.declared)) resolving)) :
    (type.resolve dimension named scopes resolving).Answers dimension scopes resolving
      (type.resolveAfresh dimension (scopes.map (·.declared)) resolving) := by
  induction type with
  | integer => exact ⟨by rw [resolveAfresh]; rfl, hscopes, rfl, rfl⟩
  | real => exact ⟨by rw [resolveAfresh]; rfl, hscopes, rfl, rfl⟩
  | boolean => exact ⟨by rw [resolveAfresh]; rfl, hscopes, rfl, rfl⟩
  | string => exact ⟨by rw [resolveAfresh]; rfl, hscopes, rfl, rfl⟩
  | named name => exact hnamed name hlead
  | array dimensions element ih =>
    have helement := ih hlead.element
    refine ⟨?_, helement.truthful, helement.declared, helement.resolving⟩
    rw [resolveAfresh, ← helement.result]
    rfl

/-- A scope that remembers what it has just found stays truthful, by `Resolution.remember`. -/
theorem Resolution.truthful_remember {name : String} {r : Resolution}
    (hscopes : AreTruthful dimension r.scopes)
    (hresult : ∀ {ty}, r.result = .ok ty →
      ∃ n, (TypeExpr.named name).Unfolds dimension n (r.scopes.map (·.declared)) ty) :
    AreTruthful dimension (r.remember name).scopes := by
  unfold Resolution.remember
  split
  · rename_i ty scope outer hty hsplit
    rw [hsplit] at hscopes hresult
    obtain ⟨hscope, houter⟩ := hscopes
    exact ⟨List.forall_mem_cons.mpr ⟨hresult hty, hscope⟩, houter⟩
  · exact hscopes

theorem Resolution.resolving_remember (name : String) (r : Resolution) :
    (r.remember name).resolving = r.resolving := by
  unfold Resolution.remember
  split <;> rfl

/-- When the definition of a name has been read and `Answers`, the name is not being read any more,
and its scope, which is put back behind those that were passed over, remembers the answer. -/
theorem Resolution.Answers.settle {name : String} {r : Resolution} {inner visible : List TypeScope}
    {key : Nat × String} {answer : Except TypeError Ty}
    (h : r.Answers dimension visible (key :: resolving) answer)
    (hscopes : AreTruthful dimension (inner ++ visible))
    (hunfolds : ∀ {ty}, answer = .ok ty →
      ∃ n, (TypeExpr.named name).Unfolds dimension n (visible.map (·.declared)) ty) :
    (((r.release key).remember name).behind inner).Answers dimension (inner ++ visible) resolving
      answer := by
  have hdeclared : ((r.release key).remember name).scopes.map (·.declared)
      = visible.map (·.declared) :=
    (Resolution.declared_remember name _).trans h.declared
  refine ⟨?_, hscopes.put_back hdeclared ?_, ?_, ?_⟩
  · exact (Resolution.result_remember name _).trans h.result
  -- what is remembered is the answer just found, which the definition unfolds to
  · have htruthful : AreTruthful dimension (r.release key).scopes := h.truthful
    apply Resolution.truthful_remember htruthful
    intro ty hty
    show ∃ n, (TypeExpr.named name).Unfolds dimension n (r.scopes.map (·.declared)) ty
    rw [h.declared]
    exact hunfolds (h.result.symm.trans hty)
  · show (inner ++ _).map _ = _
    rw [List.map_append, hdeclared, List.map_append]
  · calc ((r.release key).remember name).resolving
      _ = r.resolving.erase key := Resolution.resolving_remember name _
      _ = (key :: resolving).erase key := by rw [h.resolving]
      _ = resolving := List.erase_cons_head _ _

/-- `resolveName` gives the plain answer, if more rounds are left than definitions are `unread`. -/
theorem resolveName_answers {rounds : Nat} {name : String}
    (hrounds : unread (scopes.map (·.declared)) resolving < rounds)
    (hscopes : AreTruthful dimension scopes) (hall : scopes.map (·.declared) <:+ all)
    (hlead : LeadTo dimension all resolving (scopes.map (·.declared)) (.named name)) :
    (resolveName dimension rounds resolving scopes name).Answers dimension scopes resolving
      ((TypeExpr.named name).resolveAfresh dimension (scopes.map (·.declared)) resolving) := by
  induction rounds generalizing scopes resolving name with
  | zero => omega
  | succ rounds ih =>
    rw [resolveName]
    split
    · rename_i hdrop
      exact ⟨(resolveAfresh_undefined (findDefinition_of_drop_nil hdrop)).symm, hscopes, rfl, rfl⟩
    · rename_i scope outer hdrop
      obtain ⟨definition, hdefinition, hfind⟩ := findDefinition_of_drop hdrop
      -- the scopes that were passed over, and those that the definition sees
      have hsplit := List.prefix_iff_eq_append.mp
        (List.takeWhile_prefix (l := scopes) fun s => (s.declared.lookup name).isNone)
      rw [hdrop] at hsplit
      rw [← hsplit] at hscopes
      have hvisible : AreTruthful dimension (scope :: outer) := hscopes.of_append
      split
      · -- what the scope remembers is what the name unfolds to
        rename_i ty _ hresolved
        obtain ⟨n, hn⟩ := hvisible.1 _ (mem_of_lookup hresolved)
        have hname := TypeExpr.Unfolds.of_visible hfind hn
        exact ⟨(hname.resolveAfresh_eq hall hlead).symm, hsplit ▸ hscopes, rfl, rfl⟩
      · rename_i hnone
        cases hdefinition.symm.trans hnone
      · rename_i other _ hother
        obtain rfl := Option.some.inj (hdefinition.symm.trans hother)
        have hlength : (scope :: outer).length = ((scope :: outer).map (·.declared)).length :=
          (List.length_map _).symm
        dsimp only
        rw [hlength]
        split
        · rename_i hcontains
          have hmem := List.contains_iff_mem.mp hcontains
          exact ⟨(resolveAfresh_cyclic hfind hmem).symm, hsplit ▸ hscopes, rfl, rfl⟩
        · rename_i hcontains
          have hnew := mt List.contains_iff_mem.mpr hcontains
          -- one definition fewer is unread, and so one round less will do
          have hless := unread_lt hfind hnew
          have hinner : (scope :: outer).map (·.declared) <:+ all :=
            (findDefinition_suffix hfind).trans hall
          have hread := TypeExpr.resolve_answers hvisible (hlead.definition hall hfind)
            fun _ hother => ih (by omega) hvisible hinner hother
          have hunfolds {ty : Ty} (hty : definition.resolveAfresh dimension
              ((scope :: outer).map (·.declared))
              ((((scope :: outer).map (·.declared)).length, name) :: resolving) = .ok ty) :
              ∃ n, (TypeExpr.named name).Unfolds dimension n ((scope :: outer).map (·.declared))
                ty := by
            obtain ⟨n, hn⟩ := TypeExpr.exists_unfolds hty
            exact ⟨n + 1, .named (findDefinition_visible hfind) hn⟩
          have hdone := hread.settle hscopes hunfolds
          rw [hsplit] at hdone
          rw [resolveAfresh_named hfind hnew]
          exact hdone

end

/-- There are as many `keysOf` scopes as definitions in them. -/
theorem TypeTable.length_keysOf (scopes : List TypeScope) :
    (keysOf (scopes.map (·.declared))).length = (scopes.flatMap (·.declared)).length := by
  induction scopes with
  | nil => rfl
  | cons scope outer ih => simp [keysOf, ih]

/-- `TypeTable.resolve` gives the plain answer if the table is truthful and reads nothing. -/
theorem TypeTable.resolve_answers {dimension : Expr → Nat} {t : TypeTable}
    (hscopes : AreTruthful dimension t.scopes) (hresolving : t.resolving = []) (type : TypeExpr) :
    (t.resolve dimension type).Answers dimension t.scopes []
      (type.resolveAfresh dimension (t.scopes.map (·.declared)) []) := by
  have hlead (type : TypeExpr) :
      LeadTo dimension (t.scopes.map (·.declared)) [] (t.scopes.map (·.declared)) type :=
    List.forall_mem_nil _
  -- there are rounds for all definitions, and one more
  have hrounds : unread (t.scopes.map (·.declared)) [] < t.definitionCount + 1 := by
    have hle : unread (t.scopes.map (·.declared)) [] ≤ _ := List.length_filter_le _ _
    rw [TypeTable.length_keysOf] at hle
    exact Nat.lt_succ_of_le hle
  rw [TypeTable.resolve, hresolving]
  apply TypeExpr.resolve_answers hscopes (hlead type)
  intro name _
  exact resolveName_answers hrounds hscopes List.suffix_rfl (hlead _)

/-! ## Histories -/

/-- What can be done with a table of types. -/
inductive TypeOp where
  | push
  | pop
  | declare (name : String) (definition : TypeExpr)
  | resolve (type : TypeExpr)

/-- The table after an operation. -/
def TypeTable.perform (dimension : Expr → Nat) (t : TypeTable) : TypeOp → TypeTable
  | .push => t.push
  | .pop => t.pop
  | .declare name definition => t.declare name definition
  | .resolve type => (t.resolve dimension type).table

/-- The plain table after an operation; to resolve a type changes nothing. -/
def PlainTable.perform (t : PlainTable) : TypeOp → PlainTable
  | .push => t.push
  | .pop => t.pop
  | .declare name definition => t.declare name definition
  | .resolve _ => t

/-- A table that has the definitions of a `PlainTable`, remembers only what is true, and reads
nothing. -/
structure TypeTable.Matches (dimension : Expr → Nat) (t : TypeTable) (plain : PlainTable) :
    Prop where
  declared : t.scopes.map (·.declared) = plain.scopes
  truthful : AreTruthful dimension t.scopes
  resolving : t.resolving = []

namespace TypeTable.Matches

variable {dimension : Expr → Nat} {t : TypeTable} {plain : PlainTable}

/-- Every operation keeps a table in step with the plain one: if they `Matches`, they do so after
it. -/
theorem perform (h : t.Matches dimension plain) (op : TypeOp) :
    (t.perform dimension op).Matches dimension (plain.perform op) := by
  cases op with
  | push => exact ⟨congrArg ([] :: ·) h.declared, ⟨List.forall_mem_nil _, h.truthful⟩, h.resolving⟩
  | pop =>
    refine ⟨?_, ?_, h.resolving⟩
    · show t.scopes.tail.map _ = plain.scopes.tail
      rw [List.map_tail, h.declared]
    · have htruthful := h.truthful
      show AreTruthful dimension t.scopes.tail
      cases hscopes : t.scopes with
      | nil => trivial
      | cons scope outer =>
        rw [hscopes] at htruthful
        exact htruthful.2
  | declare name definition =>
    have htruthful := h.truthful
    have hdeclared := h.declared
    refine ⟨?_, ?_, h.resolving⟩
    · show ((t.scopes.headD {}).declare name definition :: t.scopes.tail).map _
        = ((name, definition) :: plain.scopes.headD []) :: plain.scopes.tail
      rw [← hdeclared]
      cases t.scopes <;> rfl
    · -- what the innermost scope remembered is dropped, and no other scope sees it
      show AreTruthful dimension ((t.scopes.headD {}).declare name definition :: t.scopes.tail)
      refine ⟨List.forall_mem_nil _, ?_⟩
      cases hscopes : t.scopes with
      | nil => trivial
      | cons scope outer =>
        rw [hscopes] at htruthful
        exact htruthful.2
  | resolve type =>
    -- whether it succeeds or fails
    have hanswers := TypeTable.resolve_answers h.truthful h.resolving type
    exact ⟨hanswers.declared.trans h.declared, hanswers.truthful, hanswers.resolving⟩

/-- A table `Matches` the plain one after any list of operations, if it does so before. -/
theorem perform_all (h : t.Matches dimension plain) (ops : List TypeOp) :
    (ops.foldl (TypeTable.perform dimension) t).Matches dimension
      (ops.foldl PlainTable.perform plain) := by
  induction ops generalizing t plain with
  | nil => exact h
  | cons op rest ih => exact ih (h.perform op)

end TypeTable.Matches

/-- Whatever was done with a new table before, it resolves a type to what the plain table resolves
it to after the same operations, a type or an error; and no name is being read, neither before nor
after. -/
theorem TypeTable.resolve_eq_plain (dimension : Expr → Nat) (ops : List TypeOp)
    (type : TypeExpr) :
    ((ops.foldl (TypeTable.perform dimension) {}).resolve dimension type).result
        = (ops.foldl PlainTable.perform {}).resolve dimension type
      ∧ (ops.foldl (TypeTable.perform dimension) {}).resolving = []
      ∧ ((ops.foldl (TypeTable.perform dimension) {}).resolve dimension type).resolving = [] := by
  have hnew : TypeTable.Matches dimension {} {} := ⟨rfl, trivial, rfl⟩
  have hmatches := hnew.perform_all ops
  have hanswers := TypeTable.resolve_answers hmatches.truthful hmatches.resolving type
  refine ⟨?_, hmatches.resolving, hanswers.resolving⟩
  rw [hanswers.result, hmatches.declared, PlainTable.resolve]

end Oberon
