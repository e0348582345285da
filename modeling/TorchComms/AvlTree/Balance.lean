import TorchComms.AvlTree.Order

/-! # Balance through insertion

Insertion keeps the two subtrees of every node within one level of each other. Where it makes a
tree taller it leaves it leaning to one side, which tells the single rotation from the double one.
-/
namespace TorchComms.AvlTree
namespace TreeElem

/-- The true height. -/
def depth : TreeElem → ℕ
  | null => 0
  | node _ _ l r => max l.depth r.depth + 1

/-- Every node caches its true height. -/
def CachesDepth : TreeElem → Prop
  | null => True
  | node _ h l r => h = max l.depth r.depth + 1 ∧ l.CachesDepth ∧ r.CachesDepth

/-- The subtrees of every node differ in height by at most one. -/
def Balanced : TreeElem → Prop
  | null => True
  | node _ _ l r => l.depth ≤ r.depth + 1 ∧ r.depth ≤ l.depth + 1 ∧ l.Balanced ∧ r.Balanced

variable {l r : TreeElem} {t : TreeElem}

theorem HeightExact.height_eq (ht : t.HeightExact) : t.height = t.depth := by
  induction t with
  | null => rfl
  | node e h l r ihl ihr =>
    obtain ⟨hh, hl, hr⟩ := ht
    rw [height_node, hh, depth, ihl hl, ihr hr]

theorem HeightExact.cachesDepth (ht : t.HeightExact) : t.CachesDepth := by
  induction t with
  | null => trivial
  | node e h l r ihl ihr =>
    obtain ⟨hh, hl, hr⟩ := ht
    rw [hl.height_eq, hr.height_eq] at hh
    exact ⟨hh, ihl hl, ihr hr⟩

@[simp] theorem depth_null : depth null = 0 := rfl

@[simp] theorem depth_node (e : Elem) (h : ℕ) (l r : TreeElem) :
    (node e h l r).depth = max l.depth r.depth + 1 := rfl

@[simp] theorem balanced_node (e : Elem) (h : ℕ) (l r : TreeElem) : (node e h l r).Balanced ↔
    l.depth ≤ r.depth + 1 ∧ r.depth ≤ l.depth + 1 ∧ l.Balanced ∧ r.Balanced := Iff.rfl

@[simp] theorem depth_updateHeight (t : TreeElem) : t.updateHeight.depth = t.depth := by
  cases t <;> rfl

@[simp] theorem balanced_updateHeight (t : TreeElem) : t.updateHeight.Balanced ↔ t.Balanced := by
  cases t <;> rfl

/-- A tree of two levels or more leans to one side. -/
def Leans (t : TreeElem) : Prop := 2 ≤ t.depth → t.left.depth ≠ t.right.depth

/-! ### Rotations -/

theorem balance_left (e : Elem) (h : ℕ) (hl : l.HeightExact) (hr : r.HeightExact)
    (hbl : l.Balanced) (hbr : r.Balanced) (htall : l.depth = r.depth + 2) (hlean : l.Leans) :
    (balance (node e h l r)).Balanced ∧ (balance (node e h l r)).depth = l.depth := by
  have hgo : l.height > r.height + 1 := by
    rw [hl.height_eq, hr.height_eq]
    omega
  have hlean := hlean (by omega)
  rw [balance, if_pos hgo]
  cases l with
  | null => simp at htall
  | node el k ll lr =>
    have hllh := hl.2.1.height_eq
    have hlrh := hl.2.2.height_eq
    simp only [left_node, right_node, depth_node, balanced_node] at hbl htall hlean
    by_cases hside : (node el k ll lr).left.height > (node el k ll lr).right.height
    · rw [if_pos hside]
      rw [left_node, right_node] at hside
      simp only [rightRotate, balanced_updateHeight, balanced_node, depth_updateHeight, depth_node]
      refine ⟨⟨?_, ?_, hbl.2.2.1, ?_, ?_, hbl.2.2.2, hbr⟩, ?_⟩
      all_goals omega
    · rw [if_neg hside]
      rw [left_node, right_node] at hside
      cases lr with
      | null =>
        rw [depth_null] at hlean hlrh
        omega
      | node em m ml mr =>
        obtain ⟨_, _, hbll, hml, hmr, hbml, hbmr⟩ := hbl
        simp only [depth_node, height_node] at *
        simp only [leftRotate, updateHeight, rightRotate, balanced_node, depth_node]
        refine ⟨⟨?_, ?_, ⟨?_, ?_, hbll, hbml⟩, ?_, ?_, hbmr, hbr⟩, ?_⟩
        all_goals omega

theorem balance_right (e : Elem) (h : ℕ) (hl : l.HeightExact) (hr : r.HeightExact)
    (hbl : l.Balanced) (hbr : r.Balanced) (htall : r.depth = l.depth + 2) (hlean : r.Leans) :
    (balance (node e h l r)).Balanced ∧ (balance (node e h l r)).depth = r.depth := by
  have hgo : r.height > l.height + 1 := by
    rw [hl.height_eq, hr.height_eq]
    omega
  have hlean := hlean (by omega)
  rw [balance, if_neg (by omega), if_pos hgo]
  cases r with
  | null => simp at htall
  | node er k rl rr =>
    have hrlh := hr.2.1.height_eq
    have hrrh := hr.2.2.height_eq
    simp only [left_node, right_node, depth_node, balanced_node] at hbr htall hlean
    by_cases hside : (node er k rl rr).right.height > (node er k rl rr).left.height
    · rw [if_pos hside]
      rw [left_node, right_node] at hside
      simp only [leftRotate, balanced_updateHeight, balanced_node, depth_updateHeight, depth_node]
      refine ⟨⟨?_, ?_, ⟨?_, ?_, hbl, hbr.2.2.1⟩, hbr.2.2.2⟩, ?_⟩
      all_goals omega
    · rw [if_neg hside]
      rw [left_node, right_node] at hside
      cases rl with
      | null =>
        rw [depth_null] at hlean hrlh
        omega
      | node em m ml mr =>
        obtain ⟨_, _, ⟨hml, hmr, hbml, hbmr⟩, hbrr⟩ := hbr
        simp only [depth_node, height_node] at *
        simp only [rightRotate, updateHeight, leftRotate, balanced_node, depth_node]
        refine ⟨⟨?_, ?_, ⟨?_, ?_, hbl, hbml⟩, ?_, ?_, hbmr, hbrr⟩, ?_⟩
        all_goals omega

theorem balance_of_close (e : Elem) (h : ℕ) (hl : l.HeightExact)
    (hr : r.HeightExact) (hlr : l.depth ≤ r.depth + 1) (hrl : r.depth ≤ l.depth + 1) :
    balance (node e h l r) = node e h l r := by
  rw [← hl.height_eq, ← hr.height_eq] at hlr hrl
  rw [balance, if_neg (by omega), if_neg (by omega)]

/-! ### Insertion -/

/-- `t'` is as tall as `t`, or one level taller and leaning. -/
def Grown (t t' : TreeElem) : Prop := t'.depth = t.depth ∨ t'.depth = t.depth + 1 ∧ t'.Leans

theorem balance_grown_left (e : Elem) (h : ℕ) {l l' r : TreeElem} (hl : l'.HeightExact)
    (hr : r.HeightExact) (hb : (node e h l r).Balanced) (hbl : l'.Balanced) (hgrown : Grown l l') :
    (balance (updateHeight (node e h l' r))).Balanced ∧
      Grown (node e h l r) (balance (updateHeight (node e h l' r))) := by
  obtain ⟨hlr, hrl, _, hbr⟩ := hb
  rw [updateHeight]
  by_cases hclose : l'.depth ≤ r.depth + 1 ∧ r.depth ≤ l'.depth + 1
  · rw [balance_of_close e _ hl hr hclose.1 hclose.2]
    refine ⟨⟨hclose.1, hclose.2, hbl, hbr⟩, ?_⟩
    simp only [Grown, Leans, depth_node, left_node, right_node]
    rcases hgrown with hsame | ⟨hmore, _⟩ <;> omega
  · rcases hgrown with hsame | ⟨hmore, hlean⟩
    · omega
    · obtain ⟨hbal, hdepth⟩ := balance_left e _ hl hr hbl hbr (by omega) hlean
      refine ⟨hbal, Or.inl ?_⟩
      rw [hdepth, depth_node]
      omega

theorem balance_grown_right (e : Elem) (h : ℕ) {l r r' : TreeElem} (hl : l.HeightExact)
    (hr : r'.HeightExact) (hb : (node e h l r).Balanced) (hbr : r'.Balanced) (hgrown : Grown r r') :
    (balance (updateHeight (node e h l r'))).Balanced ∧
      Grown (node e h l r) (balance (updateHeight (node e h l r'))) := by
  obtain ⟨hlr, hrl, hbl, _⟩ := hb
  rw [updateHeight]
  by_cases hclose : l.depth ≤ r'.depth + 1 ∧ r'.depth ≤ l.depth + 1
  · rw [balance_of_close e _ hl hr hclose.1 hclose.2]
    refine ⟨⟨hclose.1, hclose.2, hbl, hbr⟩, ?_⟩
    simp only [Grown, Leans, depth_node, left_node, right_node]
    rcases hgrown with hsame | ⟨hmore, _⟩ <;> omega
  · rcases hgrown with hsame | ⟨hmore, hlean⟩
    · omega
    · obtain ⟨hbal, hdepth⟩ := balance_right e _ hl hr hbl hbr (by omega) hlean
      refine ⟨hbal, Or.inl ?_⟩
      rw [hdepth, depth_node]
      omega

theorem balanced_insert (new : Elem) (ht : t.HeightExact) (hb : t.Balanced) :
    (t.insert new).1.Balanced ∧ Grown t (t.insert new).1 := by
  induction t with
  | null =>
    refine ⟨⟨Nat.zero_le _, Nat.zero_le _, trivial, trivial⟩, Or.inr ⟨rfl, ?_⟩⟩
    simp [Leans, insert]
  | node e h l r ihl ihr =>
    obtain ⟨_, hl, hr⟩ := ht
    simp only [insert]
    split_ifs
    · exact ⟨hb, Or.inl rfl⟩
    · have hexact := heightExact_insert new hl
      obtain ⟨hbl, hgrown⟩ := ihl hl hb.2.2.1
      rw [updateHeight_of_exact hexact]
      exact balance_grown_left e h hexact hr hb hbl hgrown
    · have hexact := heightExact_insert new hr
      obtain ⟨hbr, hgrown⟩ := ihr hr hb.2.2.2
      rw [updateHeight_of_exact hexact]
      exact balance_grown_right e h hl hexact hb hbr hgrown
    · exact ⟨hb, Or.inl rfl⟩

end TreeElem
end TorchComms.AvlTree
