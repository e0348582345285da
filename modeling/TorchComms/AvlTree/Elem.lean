import Mathlib.Tactic

/-! # `CtranAvlTree::TreeElem`: the linked nodes and their relinking operations

A node is an element record with its cached height and two subtrees; `null` is the
null pointer. Address arithmetic is that of `uintptr_t` and wraps at 64 bits.
-/
namespace TorchComms.AvlTree

abbrev Handle := ℕ

/-- `addr + len` in `uintptr_t`. -/
def endAddr (addr len : ℕ) : ℕ := (addr + len) % 2 ^ 64

/-- The user fields of one `TreeElem`, with the address the node was allocated at. -/
structure Elem where
  hdl : Handle
  addr : ℕ
  len : ℕ
  val : ℕ
deriving DecidableEq, Repr

def Elem.endAddr (e : Elem) : ℕ := AvlTree.endAddr e.addr e.len

inductive TreeElem where
  | null
  | node (self : Elem) (height_ : ℕ) (left right : TreeElem)
deriving DecidableEq, Repr

namespace TreeElem

/-- The cached height, 0 for a null child as in every height comparison of the code. -/
def height : TreeElem → ℕ
  | null => 0
  | node _ h _ _ => h

def left : TreeElem → TreeElem
  | null => null
  | node _ _ l _ => l

def right : TreeElem → TreeElem
  | null => null
  | node _ _ _ r => r

def hdl? : TreeElem → Option Handle
  | null => none
  | node e _ _ _ => some e.hdl

def updateHeight : TreeElem → TreeElem
  | null => null
  | node e _ l r => node e (max l.height r.height + 1) l r

/-- A rotation without the child it needs returns the null pointer. -/
def leftRotate : TreeElem → TreeElem
  | node e h l (node e' h' l' r') =>
    updateHeight (node e' h' (updateHeight (node e h l l')) r')
  | _ => null

def rightRotate : TreeElem → TreeElem
  | node e h (node e' h' l' r') r =>
    updateHeight (node e' h' l' (updateHeight (node e h r' r)))
  | _ => null

def balance : TreeElem → TreeElem
  | null => null
  | node e h l r =>
    if l.height > r.height + 1 then
      if l.left.height > l.right.height then rightRotate (node e h l r)
      else rightRotate (node e h l.leftRotate r)
    else if r.height > l.height + 1 then
      if r.right.height > r.left.height then leftRotate (node e h l r)
      else leftRotate (node e h l r.rightRotate)
    else node e h l r

/-- The overlap test of `insert`: `e` starts inside `[addr, addr + len)` or reaches past `addr`. -/
def overlaps (e : Elem) (addr len : ℕ) : Bool :=
  (decide (e.addr ≥ addr) && decide (e.addr < endAddr addr len)) ||
    (decide (e.addr ≤ addr) && decide (e.endAddr > addr))

/-- `insert`; the null case is the `new TreeElem` of both null-child branches. The second
component is `*hdl`, left null when an overlap stops the descent. -/
def insert (new : Elem) : TreeElem → TreeElem × Option Handle
  | null => (node new 1 null null, some new.hdl)
  | node e h l r =>
    if overlaps e new.addr new.len then (node e h l r, none)
    else if e.addr > new.addr then
      let (l', hdl) := l.insert new
      (balance (updateHeight (node e h l'.updateHeight r)), hdl)
    else if e.addr < new.addr then
      let (r', hdl) := r.insert new
      (balance (updateHeight (node e h l r'.updateHeight)), hdl)
    else (node e h l r, none)

/-- The branches of `removeSelf` for a node with at most one child. -/
def onlyChild : TreeElem → TreeElem → TreeElem
  | null, r => r.updateHeight
  | l, _ => l.updateHeight

/-- The walk to the right-most node of a left subtree: that node is unlinked by `removeSelf`
and the heights of `updateElems` are refreshed from the bottom up. -/
def removeRightmost (e : Elem) (h : ℕ) (l : TreeElem) : TreeElem → Elem × TreeElem
  | null => (e, onlyChild l null)
  | node e' h' l' r' =>
    let (m, t) := removeRightmost e' h' l' r'
    (m, updateHeight (node e h l t))

/-- The mirror walk to the left-most node of a right subtree. -/
def removeLeftmost (e : Elem) (h : ℕ) (r : TreeElem) : TreeElem → Elem × TreeElem
  | null => (e, onlyChild null r)
  | node e' h' l' r' =>
    let (m, t) := removeLeftmost e' h' r' l'
    (m, updateHeight (node e h t r))

def removeSelf : TreeElem → TreeElem
  | null => null
  | node _ _ null r => onlyChild null r
  | node _ _ l null => onlyChild l null
  | node _ _ (node el hl ll lr) (node er hr rl rr) =>
    if hl ≥ hr then
      match lr with
      | null => updateHeight (node el hl ll (node er hr rl rr))
      | lr =>
        let (m, l') := removeRightmost el hl ll lr
        updateHeight (node m 0 l' (node er hr rl rr))
    else
      match rl with
      | null => updateHeight (node er hr (node el hl ll lr) rr)
      | rl =>
        let (m, r') := removeLeftmost er hr rr rl
        updateHeight (node m 0 (node el hl ll lr) r')

/-- The search loop of `remove`, entered below a node that is not `e` itself. Heights are
refreshed on the way back only when something was removed. -/
def removeBelow (e : Elem) : TreeElem → TreeElem × Bool
  | null => (null, false)
  | node d h l r =>
    if l.hdl? = some e.hdl then (updateHeight (node d h l.removeSelf r), true)
    else if r.hdl? = some e.hdl then (updateHeight (node d h l r.removeSelf), true)
    else if d.addr < e.addr then
      let (r', removed) := r.removeBelow e
      if removed then (updateHeight (node d h l r'), true) else (node d h l r, false)
    else
      let (l', removed) := l.removeBelow e
      if removed then (updateHeight (node d h l' r), true) else (node d h l r, false)

def remove (t : TreeElem) (e : Elem) : TreeElem × Bool :=
  if t.hdl? = some e.hdl then (t.removeSelf, true) else t.removeBelow e

/-- The descent of `CtranAvlTree::search`. -/
def search (addr len : ℕ) : TreeElem → Option Elem
  | null => none
  | node e _ l r =>
    if e.addr > addr then l.search addr len
    else if e.endAddr < endAddr addr len then r.search addr len
    else some e

/-- In-order traversal. -/
def inorder : TreeElem → List Elem
  | null => []
  | node e _ l r => l.inorder ++ e :: r.inorder

@[simp] theorem height_null : height null = 0 := rfl
@[simp] theorem height_node (e : Elem) (h : ℕ) (l r : TreeElem) : (node e h l r).height = h := rfl
@[simp] theorem left_node (e : Elem) (h : ℕ) (l r : TreeElem) : (node e h l r).left = l := rfl
@[simp] theorem right_node (e : Elem) (h : ℕ) (l r : TreeElem) : (node e h l r).right = r := rfl
@[simp] theorem inorder_null : inorder null = [] := rfl
@[simp] theorem inorder_node (e : Elem) (h : ℕ) (l r : TreeElem) :
    (node e h l r).inorder = l.inorder ++ e :: r.inorder := rfl

@[simp] theorem inorder_updateHeight (t : TreeElem) : t.updateHeight.inorder = t.inorder := by
  cases t <;> rfl

@[simp] theorem inorder_onlyChild_right (r : TreeElem) :
    (onlyChild null r).inorder = r.inorder := by
  simp [onlyChild]

@[simp] theorem inorder_onlyChild_left (l : TreeElem) : (onlyChild l null).inorder = l.inorder := by
  cases l <;> simp [onlyChild]

/-! ### Cached heights -/

/-- Every cached height is the true one. -/
def HeightExact : TreeElem → Prop
  | null => True
  | node _ h l r => h = max l.height r.height + 1 ∧ l.HeightExact ∧ r.HeightExact

@[simp] theorem heightExact_null : HeightExact null := trivial

variable {l r : TreeElem}

theorem heightExact_updateHeight (e : Elem) (h : ℕ)
    (hl : l.HeightExact) (hr : r.HeightExact) : (updateHeight (node e h l r)).HeightExact :=
  ⟨rfl, hl, hr⟩

variable {t : TreeElem}

theorem updateHeight_of_exact (ht : t.HeightExact) : t.updateHeight = t := by
  cases t with
  | null => rfl
  | node e h l r =>
    simp only [updateHeight]
    rw [ht.1]

theorem heightExact_onlyChild_right {r : TreeElem} (hr : r.HeightExact) :
    (onlyChild null r).HeightExact := by
  simpa [onlyChild, updateHeight_of_exact hr] using hr

theorem heightExact_onlyChild_left {l : TreeElem} (hl : l.HeightExact) :
    (onlyChild l null).HeightExact := by
  cases l with
  | null => trivial
  | node e h a b => simpa [onlyChild, updateHeight_of_exact hl] using hl

/-! ### Rotations lose nothing when the child they pivot on exists -/

theorem inorder_leftRotate (e : Elem) (h : ℕ) (l : TreeElem) {r : TreeElem} (hr : r ≠ null) :
    (leftRotate (node e h l r)).inorder = (node e h l r).inorder := by
  cases r with
  | null => exact absurd rfl hr
  | node e' h' l' r' => simp [leftRotate]

theorem inorder_rightRotate (e : Elem) (h : ℕ) {l : TreeElem} (r : TreeElem) (hl : l ≠ null) :
    (rightRotate (node e h l r)).inorder = (node e h l r).inorder := by
  cases l with
  | null => exact absurd rfl hl
  | node e' h' l' r' => simp [rightRotate]

variable {e : Elem} {h : ℕ}

theorem heightExact_leftRotate (hl : l.HeightExact)
    (hr : r.HeightExact) : (leftRotate (node e h l r)).HeightExact := by
  cases r with
  | null => trivial
  | node e' h' l' r' =>
    exact heightExact_updateHeight e' h' (heightExact_updateHeight e h hl hr.2.1) hr.2.2

theorem heightExact_rightRotate (hl : l.HeightExact)
    (hr : r.HeightExact) : (rightRotate (node e h l r)).HeightExact := by
  cases l with
  | null => trivial
  | node e' h' l' r' =>
    exact heightExact_updateHeight e' h' hl.2.1 (heightExact_updateHeight e h hl.2.2 hr)

theorem leftRotate_ne_null (hr : t.right ≠ null) : t.leftRotate ≠ null := by
  rcases t with _ | ⟨e, h, l, _ | ⟨e', h', l', r'⟩⟩
  · exact absurd rfl hr
  · exact absurd rfl hr
  · simp [leftRotate, updateHeight]

theorem rightRotate_ne_null (hl : t.left ≠ null) : t.rightRotate ≠ null := by
  rcases t with _ | ⟨e, h, _ | ⟨e', h', l', r'⟩, r⟩
  · exact absurd rfl hl
  · exact absurd rfl hl
  · simp [rightRotate, updateHeight]

theorem ne_null_of_height_pos (h : 0 < t.height) : t ≠ null := by
  rintro rfl
  exact absurd h (lt_irrefl 0)

theorem right_ne_null_of_tall (ht : t.HeightExact) (hh : 1 < t.height)
    (hcmp : t.left.height ≤ t.right.height) : t.right ≠ null := by
  cases t with
  | null => simp at hh
  | node e h l r =>
    have heq := ht.1
    simp only [height_node, left_node, right_node] at hh hcmp ⊢
    exact ne_null_of_height_pos (by omega)

theorem left_ne_null_of_tall (ht : t.HeightExact) (hh : 1 < t.height)
    (hcmp : t.right.height ≤ t.left.height) : t.left ≠ null := by
  cases t with
  | null => simp at hh
  | node e h l r =>
    have heq := ht.1
    simp only [height_node, left_node, right_node] at hh hcmp ⊢
    exact ne_null_of_height_pos (by omega)

theorem inorder_leftRotate_of_right (hr : t.right ≠ null) : t.leftRotate.inorder = t.inorder := by
  cases t with
  | null => exact absurd rfl hr
  | node e h l r => exact inorder_leftRotate e h l hr

theorem inorder_rightRotate_of_left (hl : t.left ≠ null) : t.rightRotate.inorder = t.inorder := by
  cases t with
  | null => exact absurd rfl hl
  | node e h l r => exact inorder_rightRotate e h r hl

section

variable (ht : t.HeightExact)
include ht

theorem heightExact_leftRotate' : t.leftRotate.HeightExact := by
  cases t with
  | null => trivial
  | node e h l r => exact heightExact_leftRotate ht.2.1 ht.2.2

theorem heightExact_rightRotate' : t.rightRotate.HeightExact := by
  cases t with
  | null => trivial
  | node e h l r => exact heightExact_rightRotate ht.2.1 ht.2.2

theorem inorder_balance : t.balance.inorder = t.inorder := by
  cases t with
  | null => rfl
  | node e h l r =>
    obtain ⟨_, hl, hr⟩ := ht
    simp only [balance]
    split_ifs with h1 h2 h3 h4
    · exact inorder_rightRotate e h r (ne_null_of_height_pos (by omega))
    · have hpivot := right_ne_null_of_tall hl (by omega) (by omega)
      rw [inorder_rightRotate e h r (leftRotate_ne_null hpivot)]
      simp [inorder_leftRotate_of_right hpivot]
    · exact inorder_leftRotate e h l (ne_null_of_height_pos (by omega))
    · have hpivot := left_ne_null_of_tall hr (by omega) (by omega)
      rw [inorder_leftRotate e h l (rightRotate_ne_null hpivot)]
      simp [inorder_rightRotate_of_left hpivot]
    · rfl

theorem heightExact_balance : t.balance.HeightExact := by
  cases t with
  | null => trivial
  | node e h l r =>
    obtain ⟨hh, hl, hr⟩ := ht
    simp only [balance]
    split_ifs
    · exact heightExact_rightRotate hl hr
    · exact heightExact_rightRotate (heightExact_leftRotate' hl) hr
    · exact heightExact_leftRotate hl hr
    · exact heightExact_leftRotate hl (heightExact_rightRotate' hr)
    · exact ⟨hh, hl, hr⟩

end

end TreeElem
end TorchComms.AvlTree
