import Mathlib.Algebra.Order.Field.Rat
import Mathlib.Tactic.NormNum
import Mathlib.Tactic.Ring
import NamedConstants.Proofs.Decimal.NonFinite
import NamedConstants.Proofs.Expr.Grouping
import NamedConstants.Proofs.Expr.Nodes
import NamedConstants.Proofs.Source.Names
import NamedConstants.Source.Bind

/-!
Binding of a parsed text. It succeeds if every name has a meaning, and otherwise the first
name without one is blamed, which is the one with the smallest position because the names of a
parsed tree stand in the order in which they are bound. A bound tree has the value of the
written one: folding a minus sign into a number and multiplying by minus one both negate.
-/
namespace NamedConstants

section Outcome

variable {β γ δ ρ : Type} {leaf : String → Except BindingFault β} {names more : List (String × ρ)}

/-- The first of the names that has no meaning, and why it has none. -/
def FirstRefused (leaf : String → Except BindingFault β) (names : List (String × ρ))
    (e : BindingError ρ) : Prop :=
  ∃ before after, names = before ++ (e.name, e.position) :: after ∧
    (∀ n ∈ before, ∃ b, leaf n.1 = .ok b) ∧ leaf e.name = .error e.fault

def Accounts (leaf : String → Except BindingFault β) (names : List (String × ρ)) :
    Except (BindingError ρ) γ → Prop
  | .ok _ => ∀ n ∈ names, ∃ b, leaf n.1 = .ok b
  | .error e => FirstRefused leaf names e

namespace Accounts

theorem pure (c : γ) : Accounts leaf ([] : List (String × ρ)) (.ok c) := by
  intro n hn
  cases hn

/-- Names are bound one after another. -/
theorem bind {x : Except (BindingError ρ) γ} {f : γ → Except (BindingError ρ) δ}
    (hx : Accounts leaf names x) (hf : ∀ c, Accounts leaf more (f c)) :
    Accounts leaf (names ++ more) (x >>= f) := by
  cases x with
  | error e =>
    obtain ⟨before, after, rfl, hbefore, hfault⟩ := hx
    refine ⟨before, after ++ more, ?_, hbefore, hfault⟩
    rw [List.append_assoc, List.cons_append]
  | ok c =>
    have hc : Accounts leaf more (f c) := hf c
    change Accounts leaf (names ++ more) (f c)
    cases hresult : f c with
    | error e =>
      rw [hresult] at hc
      obtain ⟨before, after, rfl, hbefore, hfault⟩ := hc
      refine ⟨names ++ before, after, ?_, List.forall_mem_append.2 ⟨hx, hbefore⟩, hfault⟩
      rw [List.append_assoc]
    | ok d =>
      rw [hresult] at hc
      exact List.forall_mem_append.2 ⟨hx, hc⟩

theorem exists_ok_iff {x : Except (BindingError ρ) γ} (h : Accounts leaf names x) :
    (∃ c, x = .ok c) ↔ ∀ n ∈ names, ∃ b, leaf n.1 = .ok b := by
  cases x with
  | ok c => exact ⟨fun _ => h, fun _ => ⟨c, rfl⟩⟩
  | error e =>
    obtain ⟨before, after, rfl, -, hfault⟩ := h
    constructor
    · rintro ⟨c, ⟨⟩⟩
    · intro hall
      obtain ⟨b, hb⟩ := hall (e.name, e.position) (by simp)
      rw [hfault] at hb
      cases hb

end Accounts

/-- What an error of binding says: the name and the place of the name without a meaning that
comes first in the text, and why it has none. -/
structure Blames (source : String) (leaf : String → Except BindingFault β)
    (names : List (String × Nat)) (e : BindingError Nat) : Prop where
  mem : (e.name, e.position) ∈ names
  fault : leaf e.name = .error e.fault
  least : ∀ n ∈ names, (∃ fault, leaf n.1 = .error fault) →
    n = (e.name, e.position) ∨ e.position < n.2
  standsAt : StandsAt source e.name e.position

theorem Placed.blames {source : String} {names : List (String × Nat)} {e : BindingError Nat}
    (hplaced : Placed source names) (h : FirstRefused leaf names e) :
    Blames source leaf names e := by
  obtain ⟨before, after, rfl, hbefore, hfault⟩ := h
  have hmem : (e.name, e.position) ∈ before ++ (e.name, e.position) :: after := by simp
  refine ⟨hmem, hfault, ?_, hplaced.standsAt _ hmem⟩
  rintro n hn ⟨fault, hrefused⟩
  rcases List.mem_append.1 hn with hearly | hlate
  · obtain ⟨b, hb⟩ := hbefore n hearly
    rw [hb] at hrefused
    cases hrefused
  · have hascending := (List.pairwise_append.1 hplaced.ascending).2.1
    rcases List.mem_cons.1 hlate with heq | hafter
    · exact Or.inl heq
    · exact Or.inr ((List.pairwise_cons.1 hascending).1 n hafter)

end Outcome

namespace SourceTree

variable {α ν ρ β : Type} [Arithmetic α] {leaf : String → Except BindingFault (Expr α ν)}

inductive Binds (leaf : String → Except BindingFault (Expr α ν)) :
    SourceTree α ρ → Expr α ν → Prop where
  | number (value : α) : Binds leaf (.number value) (.literal value)
  | name {text : String} {mark : ρ} {bound : Expr α ν} (h : leaf text = .ok bound) :
      Binds leaf (.name text mark) bound
  | negatedNumber (value : α) : Binds leaf (.negate (.number value)) (.literal (-value))
  | negated {operand : SourceTree α ρ} {bound : Expr α ν} (h : Binds leaf operand bound)
      (hoperand : ∀ value, operand ≠ .number value) :
      Binds leaf (.negate operand) (.binary .mul (.literal (-Arithmetic.one)) bound)
  | binary (op : BinaryOp) {left right : SourceTree α ρ} {l r : Expr α ν}
      (hleft : Binds leaf left l) (hright : Binds leaf right r) :
      Binds leaf (.binary op left right) (.binary op l r)

theorem binds_of_bindWith {tree : SourceTree α ρ} {bound : Expr α ν}
    (h : tree.bindWith leaf = .ok bound) : Binds leaf tree bound := by
  induction tree using bindWith.induct generalizing bound with
  | case1 value =>
    cases h
    exact .number value
  | case2 text mark =>
    rw [bindWith] at h
    cases hleaf : leaf text with
    | error fault => rw [hleaf] at h; cases h
    | ok b =>
      rw [hleaf] at h
      cases h
      exact .name hleaf
  | case3 value =>
    cases h
    exact .negatedNumber value
  | case4 operand hoperand ih =>
    rw [bindWith] at h
    · obtain ⟨b, hb, heq⟩ := bind_eq_ok_iff.1 h
      cases heq
      exact .negated (ih hb) hoperand
    · exact hoperand
  | case5 op left right ihleft ihright =>
    rw [bindWith] at h
    obtain ⟨l, hl, h⟩ := bind_eq_ok_iff.1 h
    obtain ⟨r, hr, heq⟩ := bind_eq_ok_iff.1 h
    cases heq
    exact .binary op (ihleft hl) (ihright hr)

theorem Binds.bindWith_eq {tree : SourceTree α ρ} {bound : Expr α ν} (h : Binds leaf tree bound) :
    tree.bindWith leaf = .ok bound := by
  induction h with
  | number value => rfl
  | name h =>
    rw [bindWith, h]
    rfl
  | negatedNumber value => rfl
  | negated h hoperand ih =>
    rw [bindWith, ih]
    · rfl
    · exact hoperand
  | binary op hleft hright ihleft ihright =>
    rw [bindWith, ihleft, ihright]
    rfl

theorem accounts_bindWith (leaf : String → Except BindingFault (Expr α ν))
    (tree : SourceTree α ρ) : Accounts leaf tree.names (tree.bindWith leaf) := by
  induction tree using bindWith.induct with
  | case1 value => exact .pure _
  | case2 text mark =>
    rw [bindWith, names]
    cases hleaf : leaf text with
    | error fault => exact ⟨[], [], rfl, List.forall_mem_nil _, hleaf⟩
    | ok b => exact List.forall_mem_singleton.2 ⟨b, hleaf⟩
  | case3 value => exact .pure _
  | case4 operand hoperand ih =>
    rw [bindWith, names]
    · rw [← List.append_nil operand.names]
      exact ih.bind fun b => .pure _
    · exact hoperand
  | case5 op left right ihleft ihright =>
    rw [bindWith, names]
    refine ihleft.bind fun l => ?_
    rw [← List.append_nil right.names]
    exact ihright.bind fun r => .pure _

end SourceTree

theorem SourceRelation.accounts_bind {α ρ : Type} [Arithmetic α] (resolve : String → NameBinding)
    (r : SourceRelation α ρ) :
    Accounts (fun name => (resolve name).toExpr (α := α)) (r.lhs.names ++ r.rhs.names)
      (r.bind resolve) := by
  refine (SourceTree.accounts_bindWith _ r.lhs).bind fun lhs => ?_
  rw [← List.append_nil r.rhs.names]
  exact (SourceTree.accounts_bindWith _ r.rhs).bind fun rhs => .pure _

namespace NameBinding

variable {α : Type} {b : NameBinding}

def IsConstant (b : NameBinding) : Prop := ∃ id, b = constant id

def IsDecision (b : NameBinding) : Prop := ∃ name, b = decision name

theorem exists_toFormula_iff : (∃ f : Formula α, b.toFormula = .ok f) ↔ b.IsConstant := by
  cases b <;> simp [toFormula, IsConstant]

theorem exists_toExpr_iff :
    (∃ e : Expr α String, b.toExpr = .ok e) ↔ b.IsConstant ∨ b.IsDecision := by
  cases b <;> simp [toExpr, IsConstant, IsDecision]

def exactValue (lookup : ConstantId → Option Rat) (value : String → Rat) :
    NameBinding → Option Rat
  | constant id => lookup id
  | decision name => some (value name)
  | ambiguous _ => none
  | unknown => none

end NameBinding

def BinaryOp.exact (op : BinaryOp) (a b : Rat) : Option Rat :=
  if op = .div ∧ b = 0 then none else some (op.apply a b)

/-- The value of a written expression in exact arithmetic, in which a minus sign negates. -/
def SourceTree.exactValue {α ρ : Type} (number : α → Rat) (meaning : String → Option Rat) :
    SourceTree α ρ → Option Rat
  | .number value => some (number value)
  | .name text _ => meaning text
  | .negate operand => (operand.exactValue number meaning).map fun v => -v
  | .binary op left right =>
    (left.exactValue number meaning).bind fun a =>
      (right.exactValue number meaning).bind fun b => op.exact a b

section Values

theorem BinaryOp.toOption_eval (op : BinaryOp) (a b : Rat) :
    (op.eval a b).toOption = op.exact a b := by
  have hzero : Arithmetic.isZero b = true ↔ b = 0 := beq_iff_eq.trans Rat.num_eq_zero
  simp only [BinaryOp.eval, BinaryOp.exact, hzero]
  split <;> rfl

variable {α ν ρ : Type} {number : α → Rat} {lookup : ConstantId → Option Rat}
  {resolve : String → NameBinding}

theorem Expr.toOption_exactValue_binary (op : BinaryOp) (left right : Expr α ν) (value : ν → Rat) :
    ((binary op left right).exactValue number lookup value).toOption =
      (left.exactValue number lookup value).toOption.bind fun a =>
        (right.exactValue number lookup value).toOption.bind fun b => op.exact a b := by
  have hbinary : (binary op left right).exactValue number lookup value =
      (binary op ((left.mapLiterals number).assign value)
        ((right.mapLiterals number).assign value)).eval lookup := rfl
  rw [hbinary, eval]
  unfold exactValue
  cases ((left.mapLiterals number).assign value).eval lookup with
  | error fault => rfl
  | ok a =>
    cases ((right.mapLiterals number).assign value).eval lookup with
    | error fault => rfl
    | ok b => exact op.toOption_eval a b

/-- A formula needs no values of variables. -/
theorem Expr.exactValue_ofFormula (f : Formula α) (value : ν → Rat) :
    (ofFormula f : Expr α ν).exactValue number lookup value =
      (f.mapLiterals number).eval lookup := by
  unfold exactValue
  congr 1
  induction f with
  | literal v => rfl
  | constant id => rfl
  | var name => exact name.elim
  | binary op left right ihleft ihright =>
    rw [ofFormula_binary, mapLiterals, assign, bind, mapLiterals]
    exact congrArg₂ (binary op) ihleft ihright

variable [Arithmetic α]

/-- A name that stands for a constant becomes the same leaf in a constraint as in a formula. -/
theorem SourceTree.Binds.ofFormula {tree : SourceTree α ρ} {f : Formula α}
    (h : Binds (fun name => (resolve name).toFormula) tree f) :
    Binds (fun name => (resolve name).toExpr) tree (Expr.ofFormula f) := by
  induction h with
  | number value => exact .number value
  | @name text mark bound h =>
    refine .name ?_
    cases hname : resolve text with
    | constant id =>
      rw [hname] at h
      cases h
      rfl
    | decision name | ambiguous candidates | unknown => rw [hname] at h; cases h
  | negatedNumber value => exact .negatedNumber value
  | negated h hoperand ih => exact .negated ih hoperand
  | binary op hleft hright ihleft ihright => exact .binary op ihleft ihright

/-- A bound expression has the value of the written one, if the reading of the numbers knows
what their negations are and what one is. -/
theorem SourceTree.Binds.exactValue_eq {tree : SourceTree α ρ} {bound : Expr α String}
    (h : Binds (fun name => (resolve name).toExpr) tree bound)
    (hneg : ∀ x, number (-x) = -number x) (hone : number Arithmetic.one = 1)
    (value : String → Rat) :
    (bound.exactValue number lookup value).toOption =
      tree.exactValue number fun name => (resolve name).exactValue lookup value := by
  induction h with
  | number x => rfl
  | @name text mark bound h =>
    unfold SourceTree.exactValue
    cases hname : resolve text with
    | constant id =>
      rw [hname] at h
      cases h
      change ((Expr.constant id : Formula Rat).eval lookup).toOption = lookup id
      rw [Expr.eval]
      cases lookup id <;> rfl
    | decision name =>
      rw [hname] at h
      cases h
      rfl
    | ambiguous candidates | unknown => rw [hname] at h; cases h
  | negatedNumber x => exact congrArg some (hneg x)
  | @negated operand bound h hoperand ih =>
    have hminus : ((Expr.literal (-Arithmetic.one) : Expr α String).exactValue number lookup
        value).toOption = some (-1) := by
      change some (number (-Arithmetic.one)) = _
      rw [hneg, hone]
    rw [Expr.toOption_exactValue_binary, hminus, ih, SourceTree.exactValue, Option.bind_some,
      Option.map_eq_bind]
    congr 1
    funext v
    change some (-1 * v) = some (-v)
    rw [neg_one_mul]
  | binary op hleft hright ihleft ihright =>
    rw [Expr.toOption_exactValue_binary, ihleft, ihright, SourceTree.exactValue]

end Values

def doubleValue (x : Float) : Rat :=
  match x.toModel.unpack with
  | .finite sign m q _ => sign.apply m * (2 : Rat) ^ q
  | _ => 0

theorem doubleValue_neg (x : Float) : doubleValue (-x) = -doubleValue x := by
  unfold doubleValue
  rw [unpack_neg_float]
  cases x.toModel.unpack with
  | notANumber => rfl
  | infinity sign => rfl
  | zero sign => rfl
  | finite sign m q hm =>
    have happly : (-sign).apply m = -sign.apply m := by
      cases sign with
      | negative => exact (Int.neg_neg _).symm
      | positive => rfl
    change (((-sign).apply m : Int) : Rat) * 2 ^ q = -(_ * 2 ^ q)
    rw [happly]
    push_cast
    ring

theorem doubleValue_one : doubleValue 1 = 1 := by
  have hone : (1 : Float).toModel.unpack = .finite .positive (2 ^ 52) (-52) (by decide) := by
    rfl
  unfold doubleValue
  rw [hone]
  change ((2 ^ 52 : Int) : Rat) * 2 ^ (-52 : Int) = 1
  norm_num

/-- What binding makes of any text that parses, whatever the names stand for. A formula is bound
if and only if every name is a constant, and then a constraint is bound to the same tree; the
sides of a constraint are bound if and only if every name is a constant or a variable. Where
binding fails, the error blames the name without a meaning that comes first in the text, and
the text has this name at the position in the error. In exact arithmetic a bound tree has
the value of the written one, or neither has a value. -/
theorem bind_of_parse (source : String) (resolve : String → NameBinding)
    (lookup : ConstantId → Option Rat) (value : String → Rat) :
    let meaning : String → Option Rat := fun name => (resolve name).exactValue lookup value
    (∀ tree : SourceTree Float Nat, SourceTree.parse source = .ok tree →
      ((∃ f, tree.bindFormula resolve = .ok f) ↔ ∀ n ∈ tree.names, (resolve n.1).IsConstant) ∧
      ((∃ e, tree.bindExpr resolve = .ok e) ↔
        ∀ n ∈ tree.names, (resolve n.1).IsConstant ∨ (resolve n.1).IsDecision) ∧
      (∀ f, tree.bindFormula resolve = .ok f →
        tree.bindExpr resolve = .ok (.ofFormula f) ∧
        ((f.mapLiterals doubleValue).eval lookup).toOption =
          tree.exactValue doubleValue meaning) ∧
      (∀ e, tree.bindExpr resolve = .ok e →
        (e.exactValue doubleValue lookup value).toOption =
          tree.exactValue doubleValue meaning) ∧
      (∀ e, tree.bindFormula resolve = .error e →
        Blames source (fun name => (resolve name).toFormula (α := Float)) tree.names e) ∧
      ∀ e, tree.bindExpr resolve = .error e →
        Blames source (fun name => (resolve name).toExpr (α := Float)) tree.names e) ∧
    ∀ r : SourceRelation Float Nat, SourceRelation.parse source = .ok r →
      ((∃ c, r.bind resolve = .ok c) ↔
        ∀ n ∈ r.lhs.names ++ r.rhs.names,
          (resolve n.1).IsConstant ∨ (resolve n.1).IsDecision) ∧
      (∀ c, r.bind resolve = .ok c → c.relation = r.relation ∧
        (c.lhs.exactValue doubleValue lookup value).toOption =
          r.lhs.exactValue doubleValue meaning ∧
        (c.rhs.exactValue doubleValue lookup value).toOption =
          r.rhs.exactValue doubleValue meaning) ∧
      ∀ e, r.bind resolve = .error e →
        Blames source (fun name => (resolve name).toExpr (α := Float))
          (r.lhs.names ++ r.rhs.names) e := by
  intro meaning
  have hvalue : ∀ (tree : SourceTree Float Nat) (e : Expr Float String),
      tree.bindExpr resolve = .ok e →
        (e.exactValue doubleValue lookup value).toOption = tree.exactValue doubleValue meaning :=
    fun tree e h =>
      (SourceTree.binds_of_bindWith h).exactValue_eq doubleValue_neg doubleValue_one value
  constructor
  · intro tree hparse
    have hplaced : Placed source tree.names := (SourceTree.parse_eq_ok_iff_derives.1 hparse).placed
    have hformula := tree.accounts_bindWith fun name => (resolve name).toFormula (α := Float)
    have hexpr := tree.accounts_bindWith fun name => (resolve name).toExpr (α := Float)
    refine ⟨?_, ?_, ?_, hvalue tree, ?_, ?_⟩
    · exact hformula.exists_ok_iff.trans (by simp only [NameBinding.exists_toFormula_iff])
    · exact hexpr.exists_ok_iff.trans (by simp only [NameBinding.exists_toExpr_iff])
    · intro f hf
      have hsame : tree.bindExpr resolve = .ok (.ofFormula f) :=
        (SourceTree.binds_of_bindWith hf).ofFormula.bindWith_eq
      refine ⟨hsame, ?_⟩
      rw [← hvalue tree _ hsame, Expr.exactValue_ofFormula]
    · intro e he
      rw [SourceTree.bindFormula] at he
      rw [he] at hformula
      exact hplaced.blames hformula
    · intro e he
      rw [SourceTree.bindExpr] at he
      rw [he] at hexpr
      exact hplaced.blames hexpr
  · intro r hparse
    have hplaced : Placed source (r.lhs.names ++ r.rhs.names) :=
      (SourceRelation.derives_of_parse hparse).placed
    have haccounts := r.accounts_bind resolve
    refine ⟨?_, ?_, ?_⟩
    · exact haccounts.exists_ok_iff.trans (by simp only [NameBinding.exists_toExpr_iff])
    · intro c hc
      obtain ⟨lhs, hlhs, hc⟩ := bind_eq_ok_iff.1 hc
      obtain ⟨rhs, hrhs, hc⟩ := bind_eq_ok_iff.1 hc
      cases hc
      exact ⟨rfl, hvalue _ _ hlhs, hvalue _ _ hrhs⟩
    · intro e he
      rw [he] at haccounts
      exact hplaced.blames haccounts

end NamedConstants
