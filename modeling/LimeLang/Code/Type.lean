/-! Types of generated code. Equality is structural. -/

namespace LimeLang.Code

inductive Ty
  | int (bits : Nat)
  | float
  | void
  | pointer (target : Ty)
  | array (size : Nat) (element : Ty)
  | function (result : Ty) (params : List Ty) (variadic : Bool)
deriving Repr

namespace Ty

def i1 : Ty := int 1

def i8 : Ty := int 8

def i32 : Ty := int 32

/-- The type of a string. -/
def bytes : Ty := pointer i8

mutual

def beq : Ty → Ty → Bool
  | int m, int n => m == n
  | float, float => true
  | void, void => true
  | pointer a, pointer b => beq a b
  | array m a, array n b => m == n && beq a b
  | function r ps v, function s qs w => beq r s && beqList ps qs && v == w
  | _, _ => false

def beqList : List Ty → List Ty → Bool
  | [], [] => true
  | a :: as, b :: bs => beq a b && beqList as bs
  | _, _ => false

end

mutual

theorem beq_refl : ∀ a : Ty, beq a a = true
  | int _ => by simp [beq]
  | float => rfl
  | void => rfl
  | pointer a => by simp [beq, beq_refl a]
  | array _ a => by simp [beq, beq_refl a]
  | function r ps _ => by simp [beq, beq_refl r, beqList_refl ps]

theorem beqList_refl : ∀ as : List Ty, beqList as as = true
  | [] => rfl
  | a :: as => by simp [beqList, beq_refl a, beqList_refl as]

end

mutual

theorem eq_of_beq : ∀ {a b : Ty}, beq a b = true → a = b
  | int _, b, h => by cases b <;> simp_all [beq]
  | float, b, h => by cases b <;> simp_all [beq]
  | void, b, h => by cases b <;> simp_all [beq]
  | pointer a, b, h => by
    cases b <;> simp_all [beq]
    exact eq_of_beq h
  | array _ a, b, h => by
    cases b <;> simp_all [beq]
    exact eq_of_beq h.2
  | function r ps _, b, h => by
    cases b <;> simp_all [beq]
    exact ⟨eq_of_beq h.1.1, eqList_of_beq h.1.2⟩

theorem eqList_of_beq : ∀ {as bs : List Ty}, beqList as bs = true → as = bs
  | [], bs, h => by cases bs <;> simp_all [beqList]
  | a :: as, bs, h => by
    cases bs with
    | nil => simp [beqList] at h
    | cons b bs =>
      simp only [beqList, Bool.and_eq_true] at h
      rw [eq_of_beq h.1, eqList_of_beq h.2]

end

instance : DecidableEq Ty := fun a b =>
  if h : beq a b = true then isTrue (eq_of_beq h)
  else isFalse fun e => h (e ▸ beq_refl a)

def isInt : Ty → Bool
  | int _ => true
  | _ => false

def isPointer : Ty → Bool
  | pointer _ => true
  | _ => false

mutual

def text : Ty → String
  | int n => "i" ++ toString n
  | float => "float"
  | void => "void"
  | pointer t => t.text ++ "*"
  | array n t => "[" ++ toString n ++ " x " ++ t.text ++ "]"
  | function r ps v => r.text ++ " (" ++ ", ".intercalate (texts ps ++ if v then ["..."] else []) ++
      ")"

def texts : List Ty → List String
  | [] => []
  | t :: ts => t.text :: texts ts

end

end Ty

end LimeLang.Code
