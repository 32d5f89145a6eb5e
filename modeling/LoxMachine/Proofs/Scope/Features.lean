import LoxMachine.Tree

/-!
# Where `super` and classes are written

The `super` expressions that belong to some code are those written in it, functions
included, but not those written in the methods of its classes: these belong to the
methods.  The classes of some code are all that are written in it, however deep.
-/

namespace LoxMachine

/-- What a function keeps of the text it was written in. -/
inductive Feature where
  | super (e : Expr)
  | cls (methods : List Function)

/-- The class declarations among some features. -/
def Feature.isClass : Feature → Bool
  | .super _ => false
  | .cls _ => true

mutual

def Expr.features : Expr → List Feature
  | .literal _ _ => []
  | .var _ _ => []
  | .assign _ _ value _ => value.features
  | .unary _ operand _ => operand.features
  | .binary _ left right _ => left.features ++ right.features
  | .logical _ left right _ => left.features ++ right.features
  | .group inner _ => inner.features
  | .call callee args _ => callee.features ++ Expr.allFeatures args
  | .get object _ _ => object.features
  | .set object _ value _ => object.features ++ value.features
  | .this _ _ => []
  | .super id thisId keyword method span => [.super (.super id thisId keyword method span)]

def Expr.allFeatures : List Expr → List Feature
  | [] => []
  | e :: rest => e.features ++ Expr.allFeatures rest

end

/-- The features of an expression that may be missing. -/
def Expr.optionFeatures : Option Expr → List Feature
  | none => []
  | some e => e.features

mutual

def Stmt.features : Stmt → List Feature
  | .expr value _ => value.features
  | .print value _ => value.features
  | .assert value _ => value.features
  | .assertEqual left right _ => left.features ++ right.features
  | .var _ init _ => Expr.optionFeatures init
  | .block body _ => Stmt.allFeatures body
  | .cond test thenBranch none _ => test.features ++ thenBranch.features
  | .cond test thenBranch (some elseBranch) _ =>
      test.features ++ (thenBranch.features ++ elseBranch.features)
  | .loop test body _ => test.features ++ body.features
  | .ret _ value _ => Expr.optionFeatures value
  | .function decl => decl.features
  | .classDecl _ _ methods _ =>
      .cls methods :: (Function.allFeatures methods).filter Feature.isClass

def Stmt.allFeatures : List Stmt → List Feature
  | [] => []
  | s :: rest => s.features ++ Stmt.allFeatures rest

def Function.features : Function → List Feature
  | .mk _ _ _ body _ => Stmt.allFeatures body

def Function.allFeatures : List Function → List Feature
  | [] => []
  | f :: rest => f.features ++ Function.allFeatures rest

end

theorem Function.features_eq (f : Function) : f.features = Stmt.allFeatures f.body := by
  cases f
  rw [features, body]

theorem Function.mem_allFeatures {fs : List Function} {f : Function} {x : Feature}
    (hf : f ∈ fs) (hx : x ∈ f.features) : x ∈ allFeatures fs := by
  induction fs with
  | nil => cases hf
  | cons g fs ih =>
      rw [allFeatures, List.mem_append]
      rcases List.mem_cons.mp hf with rfl | hf
      · exact .inl hx
      · exact .inr (ih hf)

/-! ## Classes in the methods of classes -/

mutual

/-- An expression declares no class. -/
theorem Expr.isClass_features : ∀ (e : Expr), ∀ x ∈ e.features, x.isClass = false
  | .literal _ _ | .var _ _ | .this _ _ => by
      rw [Expr.features]
      exact nofun
  | .assign _ _ value _ => by
      rw [Expr.features]
      exact isClass_features value
  | .unary _ operand _ => by
      rw [Expr.features]
      exact isClass_features operand
  | .binary _ left right _ | .logical _ left right _ | .set left _ right _ => by
      rw [Expr.features]
      exact List.forall_mem_append.mpr ⟨isClass_features left, isClass_features right⟩
  | .group inner _ => by
      rw [Expr.features]
      exact isClass_features inner
  | .call callee args _ => by
      rw [Expr.features]
      exact List.forall_mem_append.mpr ⟨isClass_features callee, isClass_allFeatures args⟩
  | .get object _ _ => by
      rw [Expr.features]
      exact isClass_features object
  | .super _ _ _ _ _ => by
      rw [Expr.features]
      exact List.forall_mem_singleton.mpr rfl

theorem Expr.isClass_allFeatures : ∀ (es : List Expr), ∀ x ∈ Expr.allFeatures es, x.isClass = false
  | [] => by
      rw [Expr.allFeatures]
      exact nofun
  | e :: rest => by
      rw [Expr.allFeatures]
      exact List.forall_mem_append.mpr ⟨isClass_features e, isClass_allFeatures rest⟩

end

/-- With a class, the classes in its methods are among the features. -/
def Closed (xs : List Feature) : Prop :=
  ∀ methods f x, .cls methods ∈ xs → f ∈ methods → x ∈ f.features → x.isClass = true → x ∈ xs

theorem Closed.append {xs ys : List Feature} (hxs : Closed xs) (hys : Closed ys) :
    Closed (xs ++ ys) := by
  intro methods f x hmem hf hx hclass
  rcases List.mem_append.mp hmem with hmem | hmem
  · exact List.mem_append_left _ (hxs methods f x hmem hf hx hclass)
  · exact List.mem_append_right _ (hys methods f x hmem hf hx hclass)

theorem closed_of_isClass {xs : List Feature} (h : ∀ x ∈ xs, x.isClass = false) : Closed xs :=
  fun methods _ _ hmem _ _ _ => absurd (h (.cls methods) hmem) Bool.noConfusion

theorem Expr.closed_features (e : Expr) : Closed e.features :=
  closed_of_isClass e.isClass_features

theorem Expr.closed_optionFeatures (e : Option Expr) : Closed (Expr.optionFeatures e) := by
  cases e with
  | none => exact nofun
  | some e => exact e.closed_features

mutual

theorem Stmt.closed_features : ∀ (s : Stmt), Closed s.features
  | .expr value _ | .print value _ | .assert value _ => by
      rw [Stmt.features]
      exact value.closed_features
  | .assertEqual left right _ => by
      rw [Stmt.features]
      exact left.closed_features.append right.closed_features
  | .var _ init _ => by
      rw [Stmt.features]
      exact Expr.closed_optionFeatures init
  | .block body _ => by
      rw [Stmt.features]
      exact Stmt.closed_allFeatures body
  | .cond test thenBranch none _ => by
      rw [Stmt.features]
      exact test.closed_features.append (Stmt.closed_features thenBranch)
  | .cond test thenBranch (some elseBranch) _ => by
      rw [Stmt.features]
      exact test.closed_features.append
        ((Stmt.closed_features thenBranch).append (Stmt.closed_features elseBranch))
  | .loop test body _ => by
      rw [Stmt.features]
      exact test.closed_features.append (Stmt.closed_features body)
  | .ret _ value _ => by
      rw [Stmt.features]
      exact Expr.closed_optionFeatures value
  | .function decl => by
      rw [Stmt.features]
      exact Function.closed_features decl
  | .classDecl _ _ methods _ => by
      rw [Stmt.features]
      intro methods' f x hmem hf hx hclass
      have hall : x ∈ Function.allFeatures methods := by
        rcases List.mem_cons.mp hmem with heq | hmem
        · cases heq
          exact Function.mem_allFeatures hf hx
        · exact Function.closed_allFeatures methods methods' f x (List.mem_filter.mp hmem).1 hf hx
            hclass
      exact List.mem_cons_of_mem _ (List.mem_filter.mpr ⟨hall, hclass⟩)

theorem Stmt.closed_allFeatures : ∀ (body : List Stmt), Closed (Stmt.allFeatures body)
  | [] => by
      rw [Stmt.allFeatures]
      exact nofun
  | s :: rest => by
      rw [Stmt.allFeatures]
      exact (Stmt.closed_features s).append (Stmt.closed_allFeatures rest)

theorem Function.closed_features : ∀ (f : Function), Closed f.features
  | .mk _ _ _ body _ => by
      rw [Function.features]
      exact Stmt.closed_allFeatures body

theorem Function.closed_allFeatures : ∀ (fs : List Function), Closed (Function.allFeatures fs)
  | [] => by
      rw [Function.allFeatures]
      exact nofun
  | f :: rest => by
      rw [Function.allFeatures]
      exact (Function.closed_features f).append (Function.closed_allFeatures rest)

end

end LoxMachine
