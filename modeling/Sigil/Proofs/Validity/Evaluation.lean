import Sigil.Proofs.Validity.Logic

/-!
# Evaluation keeps the world valid

The standard library and every construct of the language keep the world valid, if the values and
scopes that they are given exist. So does every evaluation and every call (`keeps_within`), by
induction on how deep they may nest. A function that is called was found in a valid store, so the
scope it was made in exists.
-/

namespace Sigil

open Eval

/-! ### Lists -/

section Lists

variable {γ : Type} {s₀ : Store} {xs : List Value}

theorem keeps_forM {f : γ → Eval PUnit} {xs : List γ}
    (h : ∀ s₁, s₀.Before s₁ → ∀ x ∈ xs, Keeps s₁ (fun _ _ => True) (f x)) :
    Keeps s₀ (fun _ _ => True) (xs.forM f) := by
  induction xs generalizing s₀ with
  | nil => exact keeps_pure fun _ _ => trivial
  | cons x xs ih =>
    refine (h s₀ (.refl _) x List.mem_cons_self).bind fun s₁ _ hs₁ _ => ih fun s₂ hs₂ y hy => ?_
    exact h s₂ (hs₁.trans hs₂) y (List.mem_cons_of_mem x hy)

/-- Results of one call after another exist, and they go on to exist while the others are made. -/
private theorem keeps_mapM {f : Value → Eval Value}
    (h : ∀ s₁, s₀.Before s₁ → ∀ x ∈ xs, Keeps s₁ Value.Known (f x)) :
    Keeps s₀ (fun s vs => ∀ v ∈ vs, v.Known s) (xs.mapM f) := by
  induction xs generalizing s₀ with
  | nil => exact keeps_pure fun _ _ => List.forall_mem_nil _
  | cons x xs ih =>
    rw [List.mapM_cons]
    refine (h s₀ (.refl _) x List.mem_cons_self).bind fun s₁ v hs₁ hv => ?_
    refine (ih fun s₂ hs₂ y hy => h s₂ (hs₁.trans hs₂) y (List.mem_cons_of_mem x hy)).bind
      fun s₂ vs hs₂ hvs => keeps_pure fun s hs => ?_
    exact List.forall_mem_cons.2 ⟨hv.of_before (hs₂.trans hs), fun u hu => (hvs u hu).of_before hs⟩

/-- The accumulated value exists after each step. -/
private theorem keeps_foldlM {f : Value → Value → Eval Value}
    (h : ∀ s₁, s₀.Before s₁ → ∀ acc, acc.Known s₁ → ∀ x ∈ xs, Keeps s₁ Value.Known (f acc x))
    {start : Value} (hstart : start.Known s₀) : Keeps s₀ Value.Known (xs.foldlM f start) := by
  induction xs generalizing s₀ start with
  | nil => exact keeps_pure fun _ hs => hstart.of_before hs
  | cons x xs ih =>
    rw [List.foldlM_cons]
    refine (h s₀ (.refl _) start hstart x List.mem_cons_self).bind fun s₁ acc hs₁ hacc => ?_
    refine ih (fun s₂ hs₂ acc hacc y hy => ?_) hacc
    exact h s₂ (hs₁.trans hs₂) acc hacc y (List.mem_cons_of_mem x hy)

/-- What is kept are elements that were there before. -/
private theorem keeps_filterM {f : Value → Eval Bool}
    (h : ∀ s₁, s₀.Before s₁ → ∀ x ∈ xs, Keeps s₁ (fun _ _ => True) (f x))
    (hxs : ∀ v ∈ xs, v.Known s₀) :
    Keeps s₀ (fun s vs => ∀ v ∈ vs, v.Known s) (xs.filterM f) := by
  -- the elements kept so far are collected in reverse
  have hauxiliary (kept : List Value) (hkept : ∀ v ∈ kept, v.Known s₀) :
      Keeps s₀ (fun s vs => ∀ v ∈ vs, v.Known s) (xs.filterAuxM f kept) := by
    induction xs generalizing s₀ kept with
    | nil => exact keeps_pure fun s hs v hv => (hkept v hv).of_before hs
    | cons x xs ih =>
      refine (h s₀ (.refl _) x List.mem_cons_self).bind fun s₁ keep hs₁ _ => ?_
      rw [List.forall_mem_cons] at hxs
      refine ih (fun s₂ hs₂ y hy => h s₂ (hs₁.trans hs₂) y (List.mem_cons_of_mem x hy))
        (fun v hv => (hxs.2 v hv).of_before hs₁) _ fun v hv => ?_
      cases keep with
      | true =>
        rcases List.mem_cons.1 hv with rfl | hv
        · exact hxs.1.of_before hs₁
        · exact (hkept v hv).of_before hs₁
      | false => exact (hkept v hv).of_before hs₁
  refine (hauxiliary [] (List.forall_mem_nil _)).bind fun s₁ vs _ hvs => keeps_pure fun s hs => ?_
  exact fun v hv => (hvs v (List.mem_reverse.1 hv)).of_before hs

end Lists

/-! ### The standard library -/

namespace Native

variable {s₀ : Store} {call : Caller} {args : List Value}

/-- A missing argument is null, which exists. -/
private theorem arg_known (h : ∀ v ∈ args, v.Known s₀) (i : Nat) : (arg args i).Known s₀ :=
  arg_sound (fun v hv (_ : True) => h v hv) i trivial

private theorem keeps_arrayArg {f : Native} {i : Nat} :
    Keeps s₀ (fun _ r => arg args i = .arr r) (arrayArg f args i) :=
  .of_spares spares_arrayArg (ContainerLaw.frame.obeys_arrayArg f args i)

private theorem keeps_functionArg {f : Native} {i : Nat} :
    Keeps s₀ (fun _ _ => True) (functionArg f args i) :=
  .of_spares spares_functionArg (ContainerLaw.frame.obeys_functionArg f args i)

/-- The functions that take no function, except for pushing and popping, and except for `print`,
which puts out a value. -/
private theorem keeps_run_of_isSparing {f : Native} (hf : f.isSparing = true)
    (hprint : f ≠ .print) :
    Keeps s₀ Value.Known (f.run call args) := by
  -- they call nothing, so they may be given anything to call
  have hcall : f.run call args = f.run (fun _ _ => throw .outOfFuel) args := by
    cases f <;> first | rfl | cases hf
  refine keeps_of_spares_value (spares_run hf) ?_
  rw [hcall]
  exact ContainerLaw.obeys_run f args hprint fun _ _ => ContainerLaw.frame.of_throw _

variable (hcall : ∀ s₀ f args, (∀ v ∈ args, v.Known s₀) → Keeps s₀ Value.Known (call f args))
include hcall

/-- A test is a call with one argument. -/
private theorem keeps_passes (test : Value) {item : Value} (hitem : item.Known s₀) :
    Keeps s₀ (fun _ _ => True) (passes call test item) := by
  refine (hcall s₀ test [item] (List.forall_mem_singleton.2 hitem)).bind fun _ v _ _ => ?_
  cases v with
  | bool b => exact keeps_pure fun _ _ => trivial
  | _ => exact keeps_throw _

/-- **The standard library keeps the world valid.** -/
theorem keeps_run (f : Native) (hargs : ∀ v ∈ args, v.Known s₀) :
    Keeps s₀ Value.Known (f.run call args) := by
  cases f with
  | print =>
    exact (keeps_emit (arg_known hargs 0)).bind fun _ _ _ _ => keeps_pure fun _ _ => trivial
  | arrPush =>
    refine keeps_arrayArg.bind fun s₁ r hs₁ hr => ?_
    have hpushed := (arg_known hargs 1).of_before hs₁
    refine (keeps_push r hpushed).bind fun s₂ _ hs₂ _ => keeps_pure fun s hs => ?_
    have harray := arg_known hargs 0
    rw [hr] at harray
    exact harray.of_before ((hs₁.trans hs₂).trans hs)
  | arrPop =>
    refine keeps_arrayArg.bind fun _ r _ _ => (keeps_items r).bind fun _ elements _ helements => ?_
    cases hlast : elements.back? with
    | none => exact keeps_pure fun _ _ => trivial
    | some last =>
      have hknown := helements last (Array.mem_of_back? hlast)
      exact (keeps_pop r).bind fun _ _ hs _ =>
        keeps_pure fun _ hs' => hknown.of_before (hs.trans hs')
  | arrMap =>
    refine keeps_arrayArg.bind fun _ r _ _ => keeps_functionArg.bind fun _ g _ _ => ?_
    refine (keeps_items r).bind fun s₁ elements _ helements => ?_
    refine (keeps_mapM fun s₂ hs₂ v hv => hcall s₂ g [v] ?_).bind fun _ vs _ hvs => ?_
    · exact List.forall_mem_singleton.2 ((helements v (Array.mem_toList_iff.1 hv)).of_before hs₂)
    · exact keeps_newArray fun v hv => hvs v (List.mem_toArray.1 hv)
  | arrFilter =>
    refine keeps_arrayArg.bind fun _ r _ _ => keeps_functionArg.bind fun _ g _ _ => ?_
    refine (keeps_items r).bind fun s₁ elements _ helements => ?_
    have hitems (v : Value) (hv : v ∈ elements.toList) := helements v (Array.mem_toList_iff.1 hv)
    refine (keeps_filterM (fun s₂ hs₂ v hv => ?_) hitems).bind fun _ vs _ hvs => ?_
    · exact keeps_passes hcall g ((hitems v hv).of_before hs₂)
    · exact keeps_newArray fun v hv => hvs v (List.mem_toArray.1 hv)
  | arrReduce =>
    refine keeps_arrayArg.bind fun _ r hs _ => keeps_functionArg.bind fun _ g hs' _ => ?_
    refine (keeps_items r).bind fun s₁ elements hs'' helements => ?_
    have hitems (v : Value) (hv : v ∈ elements.toList) := helements v (Array.mem_toList_iff.1 hv)
    -- the elements were read once, so they are known in the store of every call
    have hstep {s₂ : Store} (hs₂ : s₁.Before s₂) {acc : Value} (hacc : acc.Known s₂) {v : Value}
        (hv : v ∈ elements.toList) : Keeps s₂ Value.Known (call g [acc, v]) := by
      refine hcall s₂ g [acc, v] (List.forall_mem_cons.2 ⟨hacc, List.forall_mem_singleton.2 ?_⟩)
      exact (hitems v hv).of_before hs₂
    dsimp only
    cases hstart : args[2]? with
    | some start =>
      have hstart := hargs start (List.mem_of_getElem? hstart)
      exact keeps_foldlM (fun s₂ hs₂ acc hacc v hv => hstep hs₂ hacc hv)
        (hstart.of_before ((hs.trans hs').trans hs''))
    | none =>
      cases hlist : elements.toList with
      | nil => exact keeps_throw _
      | cons first rest =>
        rw [hlist] at hitems hstep
        refine keeps_foldlM (fun s₂ hs₂ acc hacc v hv => ?_) (hitems first List.mem_cons_self)
        exact hstep hs₂ hacc (List.mem_cons_of_mem first hv)
  | _ => exact keeps_run_of_isSparing rfl (by rintro ⟨⟩)

end Native

/-! ### Declarations -/

section Declarations

variable {s₀ : Store} {scope : ScopeRef}

/-- The scope of the function is the one it is declared in. -/
private theorem keeps_declareFunction (name : String) (params : List String) (body : Node)
    (h : scope.Known s₀) :
    Keeps s₀ (fun _ _ => True) (declareFunction name params body scope) :=
  (keeps_newClosure h params body (some name)).bind fun _ _ _ hf =>
    (keeps_define _ _ hf _).bind fun _ _ _ _ => keeps_note _

private theorem keeps_declareMembers (h : scope.Known s₀) (members : List Node) :
    Keeps s₀ (fun _ _ => True) (declareMembers scope members) := by
  induction members generalizing s₀ with
  | nil => exact keeps_pure fun _ _ => trivial
  | cons member members ih =>
    cases member with
    | functionDecl name params body =>
      exact (keeps_declareFunction name params body h).bind fun _ _ hs _ => ih (h.of_before hs)
    | _ => exact ih h

/-- The scope of a namespace is new, and it exists from then on. -/
private theorem keeps_declareSpace (name : String) (members : List Node) (h : scope.Known s₀) :
    Keeps s₀ ScopeRef.Known (declareSpace name members scope) := by
  refine (keeps_newScope h).bind fun s₁ inner _ hinner => ?_
  refine (keeps_declareMembers hinner members).bind fun s₂ _ hs₂ _ => ?_
  refine (keeps_defineSpace _ _ (hinner.of_before hs₂)).bind fun s₃ _ hs₃ _ => ?_
  exact (keeps_note _).bind fun s₄ _ hs₄ _ =>
    keeps_pure fun s hs => hinner.of_before (((hs₂.trans hs₃).trans hs₄).trans hs)

/-- The scopes of the namespaces that are declared exist. -/
private theorem keeps_declareAll (h : scope.Known s₀) (statements : List Node) :
    Keeps s₀ (fun s spaces => ∀ space ∈ spaces, space.scope.Known s)
      (declareAll scope statements) := by
  induction statements generalizing s₀ with
  | nil => exact keeps_pure fun _ _ => List.forall_mem_nil _
  | cons statement rest ih =>
    cases statement with
    | functionDecl name params body =>
      exact (keeps_declareFunction name params body h).bind fun _ _ hs _ => ih (h.of_before hs)
    | spaceDecl name members =>
      refine (keeps_declareSpace name members h).bind fun s₁ inner hs₁ hinner => ?_
      refine (ih (h.of_before hs₁)).bind fun s₂ spaces hs₂ hspaces => keeps_pure fun s hs => ?_
      exact List.forall_mem_cons.2 ⟨hinner.of_before (hs₂.trans hs), fun space hspace =>
        (hspaces space hspace).of_before hs⟩
    | _ => exact ih h

end Declarations

/-! ### Constructs -/

section Constructs

variable {s₀ : Store} {eval : Evaluator} {call : Caller} {scope : ScopeRef}
  (heval : ∀ s₀ n scope, scope.Known s₀ → Keeps s₀ (Flow.Known Value.Known) (eval n scope))
include heval

/-- The constants of a namespace are evaluated in its scope. -/
private theorem keeps_initSpace (name : String) {inner : ScopeRef} (h : inner.Known s₀)
    (members : List Node) : Keeps s₀ (fun _ _ => True) (initSpace eval name inner members) := by
  induction members generalizing s₀ with
  | nil => exact keeps_pure fun _ _ => trivial
  | cons member members ih =>
    cases member with
    | varDecl constant value isMutable =>
      refine (heval s₀ value inner h).bind fun s₁ r hs₁ hr => ?_
      refine (keeps_define inner constant hr.result isMutable).bind fun s₂ _ hs₂ _ => ?_
      exact (keeps_note _).bind fun s₃ _ hs₃ _ => ih (h.of_before ((hs₁.trans hs₂).trans hs₃))
    | _ => exact ih h

/-- The scopes of namespaces still exist when their constants get their values. -/
private theorem keeps_hoist (h : scope.Known s₀) (statements : List Node) :
    Keeps s₀ (fun _ _ => True) (hoist eval statements scope) :=
  (keeps_declareAll h statements).bind fun _ _ _ hspaces =>
    keeps_forM fun _ hs space hspace =>
      keeps_initSpace heval space.name ((hspaces space hspace).of_before hs) space.members

private theorem keeps_evalStatements (h : scope.Known s₀) (statements : List Node) {last : Value}
    (hlast : last.Known s₀) :
    Keeps s₀ (Flow.Known Value.Known) (evalStatements eval scope last statements) := by
  induction statements generalizing s₀ last with
  | nil => exact keeps_pure fun _ hs => hlast.of_before hs
  | cons statement rest ih =>
    exact (heval s₀ statement scope h).onValue fun _ _ hs hv => ih (h.of_before hs) hv

/-- Blocks keep stores valid if the evaluation of statements does. -/
theorem keeps_evalBlock (h : scope.Known s₀) (statements : List Node) :
    Keeps s₀ (Flow.Known Value.Known) (evalBlock eval statements scope) :=
  (keeps_hoist heval h statements).bind fun _ _ hs _ =>
    keeps_evalStatements heval (h.of_before hs) statements trivial

private theorem keeps_evalAll (h : scope.Known s₀) (nodes : List Node) :
    Keeps s₀ (Flow.Known fun s vs => ∀ v ∈ vs, v.Known s) (evalAll eval scope nodes) := by
  induction nodes generalizing s₀ with
  | nil => exact keeps_pure fun _ _ => List.forall_mem_nil _
  | cons node nodes ih =>
    refine (heval s₀ node scope h).onValue fun s₁ v hs₁ hv => ?_
    refine (ih (h.of_before hs₁)).onValue fun s₂ vs hs₂ hvs => keeps_pure fun s hs => ?_
    exact List.forall_mem_cons.2 ⟨hv.of_before (hs₂.trans hs), fun u hu => (hvs u hu).of_before hs⟩

/-- The values so far go on to exist while the next one is evaluated. -/
private theorem keeps_evalEntries (h : scope.Known s₀) (entries : List (String × Node))
    {done : Table Value} (hdone : ∀ v ∈ done.values, v.Known s₀) :
    Keeps s₀ (Flow.Known fun s t => ∀ v ∈ t.values, v.Known s)
      (evalEntries eval scope done entries) := by
  induction entries generalizing s₀ done with
  | nil => exact keeps_pure fun _ hs v hv => (hdone v hv).of_before hs
  | cons entry rest ih =>
    refine (heval s₀ entry.2 scope h).onValue fun s₁ v hs₁ hv => ih (h.of_before hs₁) ?_
    exact Table.forall_values_insert (fun u hu => (hdone u hu).of_before hs₁) hv

private theorem keeps_evalParts (h : scope.Known s₀) (parts : List (String ⊕ Node))
    (done : String) :
    Keeps s₀ (Flow.Known fun _ _ => True) (evalParts eval scope done parts) := by
  induction parts generalizing s₀ done with
  | nil => exact keeps_pure fun _ _ => trivial
  | cons part rest ih =>
    cases part with
    | inl s => exact ih h _
    | inr n =>
      refine (heval s₀ n scope h).onValue fun s₁ v hs₁ _ => ?_
      refine (keeps_read fun _ _ _ => trivial).bind fun s₂ _ hs₂ (_ : True) => ?_
      exact ih (h.of_before (hs₁.trans hs₂)) _

/-- An absent tree is null, which exists. -/
private theorem keeps_evalOptional (h : scope.Known s₀) (n : Node) :
    Keeps s₀ (Flow.Known Value.Known) (evalOptional eval n scope) := by
  cases n with
  | absent => exact keeps_plain fun _ => trivial
  | _ => exact heval s₀ _ scope h

/-- The body that is chosen is evaluated in the same scope. -/
private theorem keeps_evalBranches (h : scope.Known s₀) (branches : List (Node × Node))
    (otherwise : Node) :
    Keeps s₀ (Flow.Known Value.Known) (evalBranches eval scope otherwise branches) := by
  induction branches generalizing s₀ with
  | nil => exact keeps_evalOptional heval h otherwise
  | cons branch rest ih =>
    refine (heval s₀ branch.1 scope h).onValue fun s₁ v hs₁ _ => ?_
    cases v with
    | bool holds =>
      refine (keeps_note _).bind fun s₂ _ hs₂ _ => ?_
      have h₂ := h.of_before (hs₁.trans hs₂)
      cases holds with
      | true => exact heval s₂ branch.2 scope h₂
      | false => exact ih h₂
    | _ => exact keeps_throw _

private theorem keeps_evalArms (h : scope.Known s₀) (subject : Value) (arms : List (Node × Node))
    (otherwise : Node) :
    Keeps s₀ (Flow.Known Value.Known) (evalArms eval scope subject otherwise arms) := by
  induction arms generalizing s₀ with
  | nil => exact keeps_evalOptional heval h otherwise
  | cons arm rest ih =>
    refine (heval s₀ arm.1 scope h).onValue fun s₁ v hs₁ _ => ?_
    have h₁ := h.of_before hs₁
    by_cases hequal : subject.equal v = true
    · simp only [if_pos hequal]
      exact heval s₁ arm.2 scope h₁
    · simp only [if_neg hequal]
      exact ih h₁

omit heval in
/-- The values collected so far exist when the array is made of them. -/
private theorem keeps_repeatBody {body : Nat → Eval Result}
    (h : ∀ s₁, s₀.Before s₁ → ∀ i, Keeps s₁ (Flow.Known Value.Known) (body i))
    (remaining next : Nat) {done : Array Value} (hdone : ∀ v ∈ done, v.Known s₀) :
    Keeps s₀ (Flow.Known Value.Known) (repeatBody body remaining next done) := by
  induction remaining generalizing s₀ next done with
  | zero => exact (keeps_newArray hdone).toResult
  | succ remaining ih =>
    refine (h s₀ (.refl _) next).onValue fun s₁ v hs₁ hv => ?_
    refine ih (fun s₂ hs₂ i => h s₂ (hs₁.trans hs₂) i) _ fun u hu => ?_
    rcases Array.mem_push.1 hu with hu | rfl
    · exact (hdone u hu).of_before hs₁
    · exact hv

omit heval in
/-- The elements are read before the first iteration and exist in all of them. -/
private theorem keeps_eachBody {body : Value → Eval Result} {items : List Value}
    (h : ∀ s₁, s₀.Before s₁ → ∀ v ∈ items, Keeps s₁ (Flow.Known Value.Known) (body v))
    {done : Array Value} (hdone : ∀ v ∈ done, v.Known s₀) :
    Keeps s₀ (Flow.Known Value.Known) (eachBody body items done) := by
  induction items generalizing s₀ done with
  | nil => exact (keeps_newArray hdone).toResult
  | cons item rest ih =>
    refine (h s₀ (.refl _) item List.mem_cons_self).onValue fun s₁ v hs₁ hv => ?_
    refine ih (fun s₂ hs₂ v hv => h s₂ (hs₁.trans hs₂) v (List.mem_cons_of_mem item hv))
      fun u hu => ?_
    rcases Array.mem_push.1 hu with hu | rfl
    · exact (hdone u hu).of_before hs₁
    · exact hv

/-- Each iteration has a new scope inside the scope of the loop. -/
private theorem keeps_evalCountLoop (h : scope.Known s₀) (counter : Option String)
    (count body : Node) :
    Keeps s₀ (Flow.Known Value.Known) (evalCountLoop eval counter count body scope) := by
  refine (heval s₀ count scope h).onValue fun s₁ v hs₁ _ => ?_
  refine (keeps_ofExcept fun _ _ _ _ => trivial).bind fun s₂ total hs₂ (_ : True) => ?_
  refine keeps_repeatBody (fun s₃ hs₃ i => ?_) _ _ fun v hv => by cases Array.not_mem_empty v hv
  have h₃ := h.of_before ((hs₁.trans hs₂).trans hs₃)
  refine (keeps_newScope h₃).bind fun s₄ inner _ hinner => ?_
  have hrest {s : Store} (hs : s₄.Before s) : Keeps s (Flow.Known Value.Known) (do
      note (.iteration i total)
      eval body inner) :=
    (keeps_note _).bind fun s' _ hs' _ => heval s' body inner (hinner.of_before (hs.trans hs'))
  cases counter with
  | none => exact hrest (.refl _)
  | some name =>
    refine (keeps_ofPartial fun _ _ _ _ => trivial).bind fun s x hs (_ : True) => ?_
    have hx : (Value.num x).Known s := trivial
    exact (keeps_define _ _ hx _).bind fun _ _ hs' _ => hrest (hs.trans hs')

/-- The loop variable holds an element, which exists. -/
private theorem keeps_evalEachLoop (h : scope.Known s₀) (item : String) (collection body : Node) :
    Keeps s₀ (Flow.Known Value.Known) (evalEachLoop eval item collection body scope) := by
  refine (heval s₀ collection scope h).onValue fun s₁ v hs₁ _ => ?_
  cases v with
  | arr r =>
    refine (keeps_items r).bind fun s₂ elements hs₂ helements => ?_
    refine keeps_eachBody (fun s₃ hs₃ v hv => ?_) fun v hv => by cases Array.not_mem_empty v hv
    have hknown := (helements v (Array.mem_toList_iff.1 hv)).of_before hs₃
    have h₃ := h.of_before ((hs₁.trans hs₂).trans hs₃)
    refine (keeps_newScope h₃).bind fun s₄ inner hs₄ hinner => ?_
    exact (keeps_define _ _ (hknown.of_before hs₄) _).bind fun s₅ _ hs₅ _ =>
      heval s₅ body inner (hinner.of_before hs₅)
  | _ => exact keeps_throw _

private theorem keeps_evalLogical (h : scope.Known s₀) (op : String) (left right : Node) :
    Keeps s₀ (Flow.Known Value.Known) (evalLogical eval op left right scope) := by
  refine (heval s₀ left scope h).onValue fun s₁ v hs₁ _ => ?_
  cases v with
  | bool a =>
    by_cases hdecides : ((op == "&") != a) = true
    · simp only [if_pos hdecides]
      exact keeps_plain fun _ => trivial
    · simp only [if_neg hdecides]
      refine (heval s₁ right scope (h.of_before hs₁)).onValue fun s₂ v _ _ => ?_
      cases v with
      | bool b => exact keeps_plain fun _ => trivial
      | _ => exact keeps_throw _
  | _ => exact keeps_throw _

/-- Operators make numbers and truth values only. -/
private theorem keeps_evalBinary (h : scope.Known s₀) (op : String) (left right : Node) :
    Keeps s₀ (Flow.Known Value.Known) (evalBinary eval op left right scope) := by
  unfold evalBinary
  by_cases hlogical : isLogicalOp op = true
  · rw [if_pos hlogical]
    exact keeps_evalLogical heval h op left right
  · rw [if_neg hlogical]
    refine (heval s₀ left scope h).onValue fun s₁ a hs₁ _ => ?_
    refine (heval s₁ right scope (h.of_before hs₁)).onValue fun s₂ b _ _ => Keeps.toResult ?_
    exact keeps_ofExcept fun v hv s _ => known_of_applyOperator hv s

omit heval in
/-- The function of a named function expression is made in a scope of its own. -/
private theorem keeps_makeFunction (h : scope.Known s₀) (name : Option String)
    (params : List String) (body : Node) :
    Keeps s₀ Value.Known (makeFunction name params body scope) := by
  cases name with
  | none => exact keeps_newClosure h params body none
  | some name =>
    refine (keeps_newScope h).bind fun s₁ inner _ hinner => ?_
    refine (keeps_newClosure hinner params body (some name)).bind fun s₂ f _ hf => ?_
    exact (keeps_define _ _ hf _).bind fun _ _ hs _ =>
      keeps_pure fun _ hs' => hf.of_before (hs.trans hs')

omit heval in
/-- Arguments exist, and a missing one is null. -/
private theorem keeps_bindParams (scope : ScopeRef) (params : List String) {args : List Value}
    (hargs : ∀ v ∈ args, v.Known s₀) :
    Keeps s₀ (fun _ _ => True) (bindParams scope params args) := by
  induction params generalizing s₀ args with
  | nil => exact keeps_pure fun _ _ => trivial
  | cons param params ih =>
    have hhead : (args.headD .null).Known s₀ := by
      cases args with
      | nil => trivial
      | cons v args => exact hargs v List.mem_cons_self
    refine (keeps_define _ _ hhead _).bind fun s₁ _ hs₁ _ => ih fun v hv => ?_
    exact (hargs v (List.mem_of_mem_tail hv)).of_before hs₁

/-- The scope of a call is inside the scope that the function was made in. -/
private theorem keeps_callClosure (h : scope.Known s₀) (params : List String) (body : Node)
    (name : Option String) {args : List Value} (hargs : ∀ v ∈ args, v.Known s₀) :
    Keeps s₀ Value.Known (callClosure eval params body scope name args) := by
  refine (keeps_newScope h).bind fun s₁ inner hs₁ hinner => ?_
  refine (keeps_bindParams inner params fun v hv => (hargs v hv).of_before hs₁).bind
    fun s₂ _ hs₂ _ => ?_
  refine (keeps_note _).bind fun s₃ _ hs₃ _ => ?_
  cases body with
  | block statements =>
    refine (keeps_evalBlock heval (hinner.of_before (hs₂.trans hs₃)) statements).bind
      fun _ r _ hr => ?_
    exact keeps_pure fun _ hs => hr.result.of_before hs
  | _ => exact keeps_throw _

variable (hcall : ∀ s₀ f args, (∀ v ∈ args, v.Known s₀) → Keeps s₀ Value.Known (call f args))
include hcall

omit heval in
/-- Adjusting the arguments adds nulls only. -/
private theorem keeps_callNative (f : Native) {args : List Value} (hargs : ∀ v ∈ args, v.Known s₀) :
    Keeps s₀ Value.Known (callNative call f args) := by
  refine (keeps_note _).bind fun s₁ _ hs₁ _ => Native.keeps_run hcall f fun v hv => ?_
  refine Value.Known.of_before hs₁ ?_
  cases harity : f.arity with
  | none =>
    rw [harity] at hv
    exact hargs v hv
  | some n =>
    rw [harity] at hv
    rcases mem_adjustArgs hv with hv | rfl
    · exact hargs v hv
    · trivial

/-- Calls keep the world valid if what they evaluate and call does. -/
private theorem keeps_callValue (f : Value) {args : List Value} (hargs : ∀ v ∈ args, v.Known s₀) :
    Keeps s₀ Value.Known (callValue eval call f args) := by
  cases f with
  | fn r =>
    have hread : Keeps s₀ (fun s f? => ∀ f, f? = some f → f.Known s) (function? r) :=
      keeps_read fun s _ hs f hf => hs.functions f (Array.mem_of_getElem? hf)
    refine hread.bind fun s₁ f? hs₁ hf? => ?_
    have hargs₁ (v : Value) (hv : v ∈ args) := (hargs v hv).of_before hs₁
    cases f? with
    | none => exact keeps_throw _
    | some f =>
      cases f with
      | closure params body scope name =>
        exact keeps_callClosure heval (hf? _ rfl) params body name hargs₁
      | native native => exact keeps_callNative hcall native hargs₁
  | _ => exact keeps_throw _

/-- The meaning of a tree keeps the world valid if what it evaluates and calls does. -/
private theorem keeps_evalNode (h : scope.Known s₀) (node : Node) :
    Keeps s₀ (Flow.Known Value.Known) (evalNode eval call node scope) := by
  cases node with
  | absent | program => exact keeps_throw _
  | literal v kind =>
    rw [evalNode]
    cases hliteral : literalValue v kind with
    | ok v => exact keeps_plain (known_of_literalValue hliteral)
    | error e => exact keeps_throw _
  | ident name => exact (keeps_lookup scope name).toResult
  | spaceMember space name => exact (keeps_lookupMember scope space name).toResult
  | array elements =>
    exact (keeps_evalAll heval h elements).onValue fun _ vs _ hvs =>
      (keeps_newArray fun v hv => hvs v (List.mem_toArray.1 hv)).toResult
  | object entries =>
    exact (keeps_evalEntries heval h entries (List.forall_mem_nil _)).onValue fun _ _ _ ht =>
      (keeps_newObject ht).toResult
  | template parts =>
    exact (keeps_evalParts heval h parts "").onValue fun _ _ _ _ => keeps_plain fun _ => trivial
  | varDecl name n isMutable =>
    exact (heval s₀ n scope h).onValue fun _ _ _ hv =>
      (keeps_define scope name hv isMutable).bind fun _ _ _ _ =>
        (keeps_note _).bind fun _ _ _ _ => keeps_plain fun _ => trivial
  | assign name n =>
    exact (heval s₀ n scope h).onValue fun _ _ _ hv =>
      (keeps_assign scope name hv).bind fun _ _ _ _ => keeps_plain fun _ => trivial
  | output n =>
    exact (heval s₀ n scope h).onValue fun _ _ _ hv =>
      (keeps_emit hv).bind fun _ _ _ _ => keeps_plain fun _ => trivial
  | ret n =>
    exact (heval s₀ n scope h).onValue fun _ _ _ hv => keeps_pure fun _ hs => hv.of_before hs
  | member target name =>
    exact (heval s₀ target scope h).onValue fun _ v _ _ => (keeps_memberValue v name).toResult
  | index target position =>
    exact (heval s₀ target scope h).onValue fun s₁ v hs₁ _ =>
      (heval s₁ position scope (h.of_before hs₁)).onValue fun _ i _ _ =>
        (keeps_indexValue v i).toResult
  | call callee args =>
    exact (heval s₀ callee scope h).onValue fun _ f hs _ =>
      (keeps_evalAll heval (h.of_before hs) args).onValue fun s₁ vs _ hvs =>
        (hcall s₁ f vs hvs).toResult
  | block statements =>
    exact (keeps_newScope h).bind fun _ inner _ hinner => keeps_evalBlock heval hinner statements
  | functionExpr name params body => exact (keeps_makeFunction h name params body).toResult
  | functionDecl name params body =>
    refine (keeps_read fun _ _ _ => trivial).bind fun _ declared hs (_ : True) => ?_
    cases declared with
    | true => exact keeps_plain fun _ => trivial
    | false =>
      exact (keeps_declareFunction name params body (h.of_before hs)).bind fun _ _ _ _ =>
        keeps_plain fun _ => trivial
  | spaceDecl name members =>
    refine (keeps_read fun _ _ _ => trivial).bind fun _ declared hs (_ : True) => ?_
    cases declared with
    | true => exact keeps_plain fun _ => trivial
    | false =>
      exact (keeps_declareSpace name members (h.of_before hs)).bind fun _ inner _ hinner =>
        (keeps_initSpace heval name hinner members).bind fun _ _ _ _ =>
          keeps_plain fun _ => trivial
  | conditional branches otherwise => exact keeps_evalBranches heval h branches otherwise
  | selection subject arms otherwise =>
    exact (heval s₀ subject scope h).onValue fun _ v hs _ =>
      keeps_evalArms heval (h.of_before hs) v arms otherwise
  | countLoop counter count body => exact keeps_evalCountLoop heval h counter count body
  | eachLoop item collection body => exact keeps_evalEachLoop heval h item collection body
  | binary op left right => exact keeps_evalBinary heval h op left right

end Constructs

/-- **Every evaluation and every call keeps the world valid**, at every depth of nesting. -/
theorem keeps_within (fuel : Nat) :
    (∀ s₀ n scope, scope.Known s₀ →
        Keeps s₀ (Flow.Known Value.Known) (evalWithin fuel n scope)) ∧
      ∀ s₀ f args, (∀ v ∈ args, v.Known s₀) → Keeps s₀ Value.Known (callWithin fuel f args) := by
  -- both at once: trees hold calls, and calls evaluate the bodies of functions
  induction fuel with
  | zero =>
    refine ⟨fun s₀ n scope _ => ?_, fun s₀ f args _ => ?_⟩
    · rw [evalWithin]
      exact keeps_throw _
    · rw [callWithin]
      exact keeps_throw _
  | succ fuel ih =>
    refine ⟨fun s₀ n scope h => ?_, fun s₀ f args hargs => ?_⟩
    · rw [evalWithin]
      exact keeps_evalNode ih.1 ih.2 h n
    · rw [callWithin]
      exact keeps_callValue ih.1 ih.2 f hargs

end Sigil
