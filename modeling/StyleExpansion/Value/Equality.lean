import StyleExpansion.Value

/-! # Equality of values

Equality of values is decidable: two trees are compared node by node.
-/
namespace StyleExpansion.Value

mutual
def same : Value → Value → Bool
  | ident a,ident b => a == b
  | number a,number b => a == b
  | dimension a u,dimension b v => a == b && u == v
  | percentage a,percentage b => a == b
  | string a,string b => a == b
  | hash a,hash b => a == b
  | url a,url b => a == b
  | operator a,operator b => a == b
  | function a xs,function b ys => a == b && sameAll xs ys
  | parens xs,parens ys => sameAll xs ys
  | brackets xs,brackets ys => sameAll xs ys
  | list xs,list ys => sameAll xs ys
  | _,_ => false
def sameAll : List Value → List Value → Bool
  | [],[] => true
  | x :: xs,y :: ys => same x y && sameAll xs ys
  | _,_ => false
end

mutual
theorem eq_of_same : ∀ {x y : Value}, same x y = true → x = y
  | ident _,y,h => by cases y <;> simp_all [same]
  | number _,y,h => by cases y <;> simp_all [same]
  | dimension _ _,y,h => by cases y <;> simp_all [same]
  | percentage _,y,h => by cases y <;> simp_all [same]
  | string _,y,h => by cases y <;> simp_all [same]
  | hash _,y,h => by cases y <;> simp_all [same]
  | url _,y,h => by cases y <;> simp_all [same]
  | operator _,y,h => by cases y <;> simp_all [same]
  | function _ xs,y,h => by
    cases y <;> simp_all [same]
    exact eq_of_sameAll h.2
  | parens xs,y,h => by
    cases y <;> simp_all [same]
    exact eq_of_sameAll h
  | brackets xs,y,h => by
    cases y <;> simp_all [same]
    exact eq_of_sameAll h
  | list xs,y,h => by
    cases y <;> simp_all [same]
    exact eq_of_sameAll h
theorem eq_of_sameAll : ∀ {xs ys : List Value}, sameAll xs ys = true → xs = ys
  | [],ys,h => by cases ys <;> simp_all [sameAll]
  | x :: xs,[],h => by simp [sameAll] at h
  | x :: xs,y :: ys,h => by
    rw [sameAll,Bool.and_eq_true] at h
    rw [eq_of_same h.1,eq_of_sameAll h.2]
end

mutual
theorem same_self : ∀ x : Value, same x x = true
  | ident _ => by simp [same]
  | number _ => by simp [same]
  | dimension _ _ => by simp [same]
  | percentage _ => by simp [same]
  | string _ => by simp [same]
  | hash _ => by simp [same]
  | url _ => by simp [same]
  | operator _ => by simp [same]
  | function _ xs => by simp [same,sameAll_self xs]
  | parens xs => by simp [same,sameAll_self xs]
  | brackets xs => by simp [same,sameAll_self xs]
  | list xs => by simp [same,sameAll_self xs]
theorem sameAll_self : ∀ xs : List Value, sameAll xs xs = true
  | [] => rfl
  | x :: xs => by simp [sameAll,same_self x,sameAll_self xs]
end

instance : DecidableEq Value := fun x y =>
  decidable_of_iff (same x y = true) ⟨eq_of_same,fun h => h ▸ same_self x⟩

end StyleExpansion.Value
