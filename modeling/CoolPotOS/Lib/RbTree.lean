import Mathlib

namespace RbTree

inductive Color
  | red | black
  deriving DecidableEq, Repr

inductive Tree (α : Type*)
  | nil
  | node (color : Color) (left : Tree α) (data : α) (right : Tree α)
  deriving Repr

/-- A parent, without the child one comes from. -/
inductive Crumb (α : Type*)
  | left (color : Color) (data : α) (right : Tree α)
  | right (color : Color) (left : Tree α) (data : α)

abbrev Path (α : Type*) := List (Crumb α)

variable {α : Type*}

def plug : Tree α → Path α → Tree α
  | t, [] => t
  | t, .left c d r :: p => plug (.node c t d r) p
  | t, .right c l d :: p => plug (.node c l d t) p

def inorder : Tree α → List α
  | .nil => []
  | .node _ l d r => inorder l ++ d :: inorder r

def before : Path α → List α
  | [] => []
  | .left _ _ _ :: p => before p
  | .right _ l d :: p => before p ++ (inorder l ++ [d])

def after : Path α → List α
  | [] => []
  | .left _ d r :: p => d :: inorder r ++ after p
  | .right _ _ _ :: p => after p

def isRed : Tree α → Bool
  | .node .red _ _ _ => true
  | _ => false

def setColor (c : Color) : Tree α → Tree α
  | .nil => .nil
  | .node _ l d r => .node c l d r

def first : Tree α → Option α
  | .nil => none
  | .node _ .nil d _ => some d
  | .node _ l _ _ => first l

def top : Tree α → Option α
  | .nil => none
  | .node _ _ d _ => some d

/-- The place for a new leaf: to the left of every element with `goLeft`. -/
def descend (goLeft : α → Bool) : Tree α → Path α → Path α
  | .nil, p => p
  | .node c l d r, p =>
    if goLeft d then descend goLeft l (.left c d r :: p) else descend goLeft r (.right c l d :: p)

/-- Restores the colours above a red node with children `l` and `r`. A red parent always
has a parent, because the root is black. -/
def insertColor : Tree α → α → Tree α → Path α → Tree α
  | l, x, r, .left .red d s :: .left _ gd u :: p =>
    if isRed u then
      insertColor (.node .black (.node .red l x r) d s) gd (setColor .black u) p
    else
      setColor .black (plug (.node .black (.node .red l x r) d (.node .red s gd u)) p)
  | l, x, r, .right .red s d :: .left _ gd u :: p =>
    if isRed u then
      insertColor (.node .black s d (.node .red l x r)) gd (setColor .black u) p
    else
      setColor .black (plug (.node .black (.node .red s d l) x (.node .red r gd u)) p)
  | l, x, r, .right .red s d :: .right _ u gd :: p =>
    if isRed u then
      insertColor (setColor .black u) gd (.node .black s d (.node .red l x r)) p
    else
      setColor .black (plug (.node .black (.node .red u gd s) d (.node .red l x r)) p)
  | l, x, r, .left .red d s :: .right _ u gd :: p =>
    if isRed u then
      insertColor (setColor .black u) gd (.node .black (.node .red l x r) d s) p
    else
      setColor .black (plug (.node .black (.node .red u gd l) x (.node .red r d s)) p)
  | l, x, r, p => setColor .black (plug (.node .red l x r) p)

def insert (goLeft : α → Bool) (x : α) (t : Tree α) : Tree α :=
  insertColor .nil x .nil (descend goLeft t [])

/-- A black node is missing in `t`, the left child of a parent with colour `c` and data
`d`. The sibling has a red child: one or two rotations make up for it. -/
def eraseRotateLeft (c : Color) (t : Tree α) (d : α) : Tree α → Tree α
  | .node oc ol od or =>
    if isRed or then .node c (.node .black t d ol) od (setColor .black or)
    else
      match ol with
      | .node _ oll old olr => .node c (.node .black t d oll) old (.node .black olr od or)
      | .nil => .node c t d (.node oc .nil od or)
  | .nil => .node c t d .nil

def eraseRotateRight (c : Color) (t : Tree α) (d : α) : Tree α → Tree α
  | .node oc ol od or =>
    if isRed ol then .node c (setColor .black ol) od (.node .black or d t)
    else
      match or with
      | .node _ orl ord orr => .node c (.node .black ol od orl) ord (.node .black orr d t)
      | .nil => .node c (.node oc ol od .nil) d t
  | .nil => .node c .nil d t

def childrenBlack : Tree α → Bool
  | .nil => true
  | .node _ l _ r => !isRed l && !isRed r

/-- Restores the colours above `t`, where a black node is missing. -/
def eraseColor : Tree α → Path α → Tree α
  | t, [] => setColor .black t
  | t, .left c d other :: p =>
    if isRed t then plug (setColor .black t) (.left c d other :: p)
    else
      match other with
      | .node .red ol od or =>
        if childrenBlack ol then
          plug (.node .black t d (setColor .red ol)) (.left .black od or :: p)
        else
          setColor .black (plug (eraseRotateLeft .red t d ol) (.left .black od or :: p))
      | other =>
        if childrenBlack other then eraseColor (.node c t d (setColor .red other)) p
        else setColor .black (plug (eraseRotateLeft c t d other) p)
  | t, .right c other d :: p =>
    if isRed t then plug (setColor .black t) (.right c other d :: p)
    else
      match other with
      | .node .red ol od or =>
        if childrenBlack or then
          plug (.node .black (setColor .red or) d t) (.right .black ol od :: p)
        else
          setColor .black (plug (eraseRotateRight .red t d or) (.right .black ol od :: p))
      | other =>
        if childrenBlack other then eraseColor (.node c (setColor .red other) d t) p
        else setColor .black (plug (eraseRotateRight c t d other) p)

/-- The node of an element: its path, its colour and its children. -/
def find [DecidableEq α] (x : α) : Tree α → Path α → Option (Path α × Color × Tree α × Tree α)
  | .nil, _ => none
  | .node c l d r, p =>
    if d = x then some (p, c, l, r)
    else (find x l (.left c d r :: p)).or (find x r (.right c l d :: p))

/-- The leftmost node of a tree with root `c l d r`: its path inside the tree, its colour,
its element and its right child. -/
def leftmost : Color → Tree α → α → Tree α → Path α → Path α × Color × α × Tree α
  | c, .nil, d, r, p => (p, c, d, r)
  | c, .node lc ll ld lr, d, r, p => leftmost lc ll ld lr (.left c d r :: p)

/-- Unlinks a node without a left or without a right child. -/
def eraseSingle (c : Color) (child : Tree α) (p : Path α) : Tree α :=
  if c = .black then eraseColor child p else plug child p

/-- Unlinks the node of an element; `none` when there is none in the tree. -/
def erase [DecidableEq α] (x : α) (t : Tree α) : Option (Tree α) :=
  match find x t [] with
  | none => none
  | some (p, c, .nil, r) => some (eraseSingle c r p)
  | some (p, c, l, .nil) => some (eraseSingle c l p)
  | some (p, c, l, .node rc rl rd rr) =>
    -- the next element takes the place and the colour of the node
    let (q, sc, sd, sr) := leftmost rc rl rd rr []
    some (eraseSingle sc sr (q ++ .right c l sd :: p))

/-- The elements at the children of the node of an element. -/
def children [DecidableEq α] (x : α) (t : Tree α) : Option α × Option α :=
  match find x t [] with
  | none => (none, none)
  | some (_, _, l, r) => (top l, top r)

@[simp]
theorem inorder_nil : inorder (.nil : Tree α) = [] := rfl

@[simp]
theorem inorder_node (c : Color) (l : Tree α) (d : α) (r : Tree α) :
    inorder (.node c l d r) = inorder l ++ d :: inorder r := rfl

@[simp]
theorem inorder_setColor (c : Color) (t : Tree α) : inorder (setColor c t) = inorder t := by
  cases t <;> rfl

@[simp]
theorem before_left (c : Color) (d : α) (r : Tree α) (p : Path α) :
    before (.left c d r :: p) = before p := rfl

@[simp]
theorem before_right (c : Color) (l : Tree α) (d : α) (p : Path α) :
    before (.right c l d :: p) = before p ++ (inorder l ++ [d]) := rfl

@[simp]
theorem after_left (c : Color) (d : α) (r : Tree α) (p : Path α) :
    after (.left c d r :: p) = d :: inorder r ++ after p := rfl

@[simp]
theorem after_right (c : Color) (l : Tree α) (d : α) (p : Path α) : after (.right c l d :: p) = after p := rfl

theorem inorder_plug (t : Tree α) (p : Path α) : inorder (plug t p) = before p ++ inorder t ++ after p := by
  induction p generalizing t with
  | nil => simp [plug, before, after]
  | cons crumb p ih =>
    cases crumb <;> simp [plug, ih]

theorem first_eq (t : Tree α) : first t = (inorder t).head? := by
  induction t with
  | nil => rfl
  | node c l d r ihl ihr =>
    cases l with
    | nil => rfl
    | node lc ll ld lr =>
      unfold first
      rw [ihl]
      simp

theorem inorder_insertColor (l : Tree α) (x : α) (r : Tree α) (p : Path α) :
    inorder (insertColor l x r p) = before p ++ (inorder l ++ x :: inorder r) ++ after p := by
  induction l, x, r, p using insertColor.induct with
  | case1 l x r d s c gd u p hu ih => simp [insertColor, hu, ih]
  | case2 l x r d s c gd u p hu => simp [insertColor, hu, inorder_plug]
  | case3 l x r s d c gd u p hu ih => simp [insertColor, hu, ih]
  | case4 l x r s d c gd u p hu => simp [insertColor, hu, inorder_plug]
  | case5 l x r s d c u gd p hu ih => simp [insertColor, hu, ih]
  | case6 l x r s d c u gd p hu => simp [insertColor, hu, inorder_plug]
  | case7 l x r d s c u gd p hu ih => simp [insertColor, hu, ih]
  | case8 l x r d s c u gd p hu => simp [insertColor, hu, inorder_plug]
  | case9 l x r p h1 h2 h3 h4 =>
    rw [insertColor, inorder_setColor, inorder_plug]
    · rfl
    all_goals assumption

theorem inorder_eraseRotateLeft (c : Color) (t : Tree α) (d : α) (other : Tree α) :
    inorder (eraseRotateLeft c t d other) = inorder t ++ d :: inorder other := by
  unfold eraseRotateLeft
  split
  · split
    · simp
    · split <;> simp
  · simp

theorem inorder_eraseRotateRight (c : Color) (t : Tree α) (d : α) (other : Tree α) :
    inorder (eraseRotateRight c t d other) = inorder other ++ d :: inorder t := by
  unfold eraseRotateRight
  split
  · split
    · simp
    · split <;> simp
  · simp

theorem inorder_eraseColor (t : Tree α) (p : Path α) :
    inorder (eraseColor t p) = before p ++ inorder t ++ after p := by
  induction p generalizing t with
  | nil => simp [eraseColor, before, after]
  | cons crumb p ih =>
    cases crumb with
    | left c d other =>
      unfold eraseColor
      split
      · simp [inorder_plug]
      · split
        · split <;> simp [inorder_plug, inorder_eraseRotateLeft]
        · split <;> simp [inorder_plug, inorder_eraseRotateLeft, ih]
    | right c other d =>
      unfold eraseColor
      split
      · simp [inorder_plug]
      · split
        · split <;> simp [inorder_plug, inorder_eraseRotateRight]
        · split <;> simp [inorder_plug, inorder_eraseRotateRight, ih]

theorem inorder_eraseSingle (c : Color) (child : Tree α) (p : Path α) :
    inorder (eraseSingle c child p) = before p ++ inorder child ++ after p := by
  unfold eraseSingle
  split
  · exact inorder_eraseColor child p
  · exact inorder_plug child p

theorem before_append (p q : Path α) : before (p ++ q) = before q ++ before p := by
  induction p with
  | nil => simp [before]
  | cons crumb p ih => cases crumb <;> simp [ih]

theorem after_append (p q : Path α) : after (p ++ q) = after p ++ after q := by
  induction p with
  | nil => simp [after]
  | cons crumb p ih => cases crumb <;> simp [ih]

theorem leftmost_spec (c : Color) (l : Tree α) (d : α) (r : Tree α) (p : Path α) (hp : before p = []) :
    before (leftmost c l d r p).1 = [] ∧ (leftmost c l d r p).2.2.1 :: inorder (leftmost c l d r p).2.2.2 ++
        after (leftmost c l d r p).1 = inorder l ++ d :: inorder r ++ after p := by
  induction l generalizing c d r p with
  | nil =>
    unfold leftmost
    exact ⟨hp, by simp⟩
  | node lc ll ld lr ihl ihr =>
    unfold leftmost
    obtain ⟨hbefore, horder⟩ := ihl lc ld lr (.left c d r :: p) hp
    exact ⟨hbefore, by rw [horder]; simp⟩

section Find

variable [DecidableEq α] {x : α}

theorem find_some {t : Tree α} {p q : Path α} {c : Color} {l r : Tree α}
    (h : find x t p = some (q, c, l, r)) :
    before p ++ inorder t ++ after p = before q ++ (inorder l ++ x :: inorder r) ++ after q := by
  induction t generalizing p with
  | nil => cases h
  | node tc tl td tr ihl ihr =>
    unfold find at h
    split at h
    case isTrue hd =>
      obtain rfl := hd
      cases h
      rfl
    case isFalse hd =>
      rcases Option.or_eq_some_iff.mp h with hl | ⟨-, hr⟩
      · rw [← ihl hl]
        simp
      · rw [← ihr hr]
        simp

theorem find_eq_none {t : Tree α} {p : Path α} : find x t p = none ↔ x ∉ inorder t := by
  induction t generalizing p with
  | nil => simp [find]
  | node c l d r ihl ihr =>
    unfold find
    split
    case isTrue hd => simp [hd]
    case isFalse hd =>
      rw [Option.or_eq_none_iff, ihl, ihr]
      simp [Ne.symm hd]

theorem erase_spec {t : Tree α} (h : x ∈ inorder t) :
    ∃ t' a b, erase x t = some t' ∧ inorder t = a ++ x :: b ∧ inorder t' = a ++ b := by
  obtain ⟨⟨p, c, l, r⟩, hfind⟩ : ∃ z, find x t [] = some z := by
    apply Option.ne_none_iff_exists'.mp
    rw [Ne, find_eq_none, not_not]
    exact h
  have horder : inorder t = before p ++ (inorder l ++ x :: inorder r) ++ after p := by
    rw [← find_some hfind]
    simp [before, after]
  unfold erase
  rw [hfind]
  rcases l with - | ⟨lc, ll, ld, lr⟩
  · refine ⟨_, before p, inorder r ++ after p, rfl, by simp [horder], ?_⟩
    rw [inorder_eraseSingle, List.append_assoc]
  rcases r with - | ⟨rc, rl, rd, rr⟩
  · refine ⟨_, before p ++ inorder (.node lc ll ld lr), after p, rfl, by simp [horder], ?_⟩
    rw [inorder_eraseSingle]
  · obtain ⟨hbefore, hnext⟩ := leftmost_spec rc rl rd rr [] rfl
    refine ⟨_, before p ++ inorder (.node lc ll ld lr), inorder (.node rc rl rd rr) ++ after p, rfl,
      by simp [horder], ?_⟩
    -- the path to the next element goes through the place of the erased one
    rw [inorder_eraseSingle, before_append, after_append, hbefore, inorder_node rc, ← List.append_nil
      (inorder rl ++ _)]
    change _ = _ ++ (inorder rl ++ rd :: inorder rr ++ after [] ++ after p)
    rw [← hnext]
    simp

theorem erase_eq_none {t : Tree α} (h : x ∉ inorder t) : erase x t = none := by
  unfold erase
  rw [find_eq_none.mpr h]

end Find

section Ordered

variable {key : α → ℕ} {x : α}

theorem before_append_after_descend (goLeft : α → Bool) (t : Tree α) (p : Path α) :
    before (descend goLeft t p) ++ after (descend goLeft t p) = before p ++ inorder t ++ after p := by
  induction t generalizing p with
  | nil => simp [descend]
  | node c l d r ihl ihr =>
    unfold descend
    split
    · rw [ihl]
      simp
    · rw [ihr]
      simp

theorem descend_between (t : Tree α) (p : Path α)
    (hsorted : (before p ++ inorder t ++ after p).Pairwise fun y z => key y ≤ key z)
    (hb : ∀ y ∈ before p, key y ≤ key x) (ha : ∀ y ∈ after p, key x ≤ key y) :
    (∀ y ∈ before (descend (fun d => decide (key x < key d)) t p), key y ≤ key x) ∧
      ∀ y ∈ after (descend (fun d => decide (key x < key d)) t p), key x ≤ key y := by
  induction t generalizing p with
  | nil => exact ⟨hb, ha⟩
  | node c l d r ihl ihr =>
    have hpair := hsorted
    simp only [inorder_node, List.pairwise_append, List.pairwise_cons, List.mem_append,
      List.mem_cons] at hpair
    unfold descend
    split
    case isTrue hlt =>
      rw [decide_eq_true_eq] at hlt
      apply ihl
      · simpa using hsorted
      · exact hb
      · intro y hy
        simp only [after_left, List.cons_append, List.mem_cons, List.mem_append] at hy
        rcases hy with rfl | hy | hy
        · exact hlt.le
        · exact hlt.le.trans (hpair.1.2.1.2.1.1 y hy)
        · exact ha y hy
    case isFalse hge =>
      rw [decide_eq_true_eq, not_lt] at hge
      apply ihr
      · simpa using hsorted
      · intro y hy
        simp only [before_right, List.mem_append, List.mem_singleton] at hy
        rcases hy with hy | hy | rfl
        · exact hb y hy
        · exact (hpair.1.2.1.2.2 y hy d (Or.inl rfl)).trans hge
        · exact hge
      · exact ha

theorem insert_spec (t : Tree α) (hsorted : (inorder t).Pairwise fun y z => key y ≤ key z) :
    ∃ a b, inorder t = a ++ b ∧ inorder (insert (fun d => decide (key x < key d)) x t) = a ++ x :: b ∧
      (∀ y ∈ a, key y ≤ key x) ∧ ∀ y ∈ b, key x ≤ key y := by
  have hbetween := @descend_between α key x t [] (by simpa [before, after] using hsorted)
    (by simp [before]) (by simp [after])
  refine ⟨before (descend _ t []), after (descend _ t []), ?_, ?_, hbetween⟩
  · rw [before_append_after_descend]
    simp [before, after]
  · unfold insert
    rw [inorder_insertColor]
    simp

theorem inorder_insert_perm (goLeft : α → Bool) (x : α) (t : Tree α) :
    ∃ a b, inorder t = a ++ b ∧ inorder (insert goLeft x t) = a ++ x :: b := by
  refine ⟨before (descend goLeft t []), after (descend goLeft t []), ?_, ?_⟩
  · rw [before_append_after_descend]
    simp [before, after]
  · unfold insert
    rw [inorder_insertColor]
    simp

end Ordered

end RbTree
