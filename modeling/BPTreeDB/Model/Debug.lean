import BPTreeDB.Model.Tree

/-!
# The invariant checker

`bfs_walk_tree` and `assert_tree_invariants` of `debug.py`.  The checker changes no page, so
a node carries the content of its page instead of a reference to the page object.
-/

namespace BPTreeDB.Debug

open Lib Eng Codec BPlusTree

/-! ## Walking the tree -/

/-- A single materialized node in the in-memory tree representation. -/
inductive BPlusTreeNode where
  | mk (pageId : ℕ) (page : Page) (children : List BPlusTreeNode)

namespace BPlusTreeNode

def pageId : BPlusTreeNode → ℕ
  | .mk pageId _ _ => pageId

def page : BPlusTreeNode → Page
  | .mk _ page _ => page

def children : BPlusTreeNode → List BPlusTreeNode
  | .mk _ _ children => children

end BPlusTreeNode

/-- The children of a page, left to right. -/
def childPageIds : Page → List ℕ
  | .leaf _ => []
  | .internal p => p.leftmostChildPageId :: p.slots.map (·.childPageId)

/-- `page_id_to_node`, for a node whose children are not known yet. -/
def pageIdToNode (pageId : ℕ) : Eng (ℕ × Page) := do
  let page ← deref (← BufferPool.get pageId)
  return (pageId, page)

/-- Fetch the nodes of a list of pages, one after the other. -/
def fetchNodes : List ℕ → Eng (List (ℕ × Page))
  | [] => return []
  | pageId :: rest => do
      let node ← pageIdToNode pageId
      return node :: (← fetchNodes rest)

/-- The loop of `bfs_walk_tree`.  The queue holds the rest of one level and behind it the
children found so far, so the nodes are taken level by level. -/
def fetchLevels : (fuel : ℕ) → (level : List (ℕ × Page)) → Eng (List (List (ℕ × Page)))
  | 0, _ => throw .diverges
  | fuel + 1, level => do
      let below ← fetchNodes (level.flatMap fun node => childPageIds node.2)
      if below.isEmpty then return [level]
      else return level :: (← fetchLevels fuel below)

/-- The nodes of a level, each with its share of the nodes of the level below. -/
def adopt : (level : List (ℕ × Page)) → (below : List BPlusTreeNode) → List BPlusTreeNode
  | [], _ => []
  | (pageId, page) :: level, below =>
      .mk pageId page (below.take (childPageIds page).length) ::
        adopt level (below.drop (childPageIds page).length)

/-- The levels with the `children` of their nodes. -/
def linkLevels : List (List (ℕ × Page)) → List (List BPlusTreeNode)
  | [] => []
  | level :: rest => adopt level ((linkLevels rest).headD []) :: linkLevels rest

/-- `bfs_walk_tree`.  The source has no bound on the levels; `fuel` is one. -/
def bfsWalkTree (fuel : ℕ) : Eng (List (List BPlusTreeNode)) := do
  let m ← Pager.getMeta
  let root ← pageIdToNode m.rootPageId
  return linkLevels (← fetchLevels fuel [root])

/-! ## Extreme keys -/

/-- The keys of the slots of a page. -/
def slotKeys : Page → List Bytes
  | .leaf p => p.slots.map (·.key)
  | .internal p => p.slots.map (·.key)

/-- `slots[0].key`. -/
def firstKey (page : Page) : Except Err Bytes :=
  match (slotKeys page).head? with
  | some key => .ok key
  | none => .error .indexError

/-- `slots[-1].key`. -/
def lastKey (page : Page) : Except Err Bytes :=
  match (slotKeys page).getLast? with
  | some key => .ok key
  | none => .error .indexError

/-- `_smallest_leaf_key`. -/
def smallestLeafKey : BPlusTreeNode → Except Err Bytes
  | .mk _ (.leaf p) _ => firstKey (.leaf p)
  | .mk _ (.internal _) [] => .error .indexError
  | .mk _ (.internal _) (child :: _) => smallestLeafKey child

mutual

/-- `_largest_leaf_key`. -/
def largestLeafKey : BPlusTreeNode → Except Err Bytes
  | .mk _ (.leaf p) _ => lastKey (.leaf p)
  | .mk _ (.internal _) children => largestLeafKeyOfLast children

/-- `_largest_leaf_key` of the last node of a list. -/
def largestLeafKeyOfLast : List BPlusTreeNode → Except Err Bytes
  | [] => .error .indexError
  | [child] => largestLeafKey child
  | _ :: child :: children => largestLeafKeyOfLast (child :: children)

end

/-! ## The checks -/

def pageTypeName : Page → String
  | .leaf _ => "LeafPage"
  | .internal _ => "InternalPage"

def isLeafPage : Page → Bool
  | .leaf _ => true
  | .internal _ => false

/-- `raise_invariant_error`. -/
def raiseInvariantError {α : Type} (msg : String) (node : BPlusTreeNode) (level : ℕ) :
    Except Err α :=
  .error (.assertionError (msg ++ " (page ID: " ++ toString node.pageId ++ ", page type: " ++
    pageTypeName node.page ++ ", level: " ++ toString level ++ ")"))

/-- Each key is at most the next one. -/
def slotsAreSorted : List Bytes → Bool
  | key :: key' :: keys => decide (key ≤ key') && slotsAreSorted (key' :: keys)
  | _ => true

/-- Internal node separators correctly partition the children. -/
def checkSeparators (node : BPlusTreeNode) (levelIdx : ℕ) :
    List InternalSlot → List BPlusTreeNode → Except Err Unit
  | [], _ => .ok ()
  | slot :: slots, left :: right :: children => do
      let leftChildMax ← largestLeafKey left
      let rightChildMin ← smallestLeafKey right
      if leftChildMax < slot.key ∧ slot.key ≤ rightChildMin then
        checkSeparators node levelIdx slots (right :: children)
      else raiseInvariantError "Invalid internal node separator" node levelIdx
  | _ :: _, _ => .error .indexError

/-- The checks of a single node. -/
def checkNode (m : MetaPage) (levelCount levelIdx : ℕ) (node : BPlusTreeNode) : Except Err Unit :=
  if ¬ node.pageId < m.nextPageId then
    raiseInvariantError "Page ID exceeds meta's next page ID" node levelIdx
  else if ¬ slotsAreSorted (slotKeys node.page) then
    raiseInvariantError "Slots are not sorted by key" node levelIdx
  else if levelIdx + 1 < levelCount ∧ isLeafPage node.page then
    raiseInvariantError "Unexpected leaf page at non-leaf level" node levelIdx
  else if levelIdx + 1 = levelCount ∧ ¬ isLeafPage node.page then
    raiseInvariantError "Unexpected internal page at leaf level" node levelIdx
  else if 0 < levelIdx ∧ isPageUnderpopulated m.pageSizeBytes node.page then
    raiseInvariantError "Underpopulated non-root page" node levelIdx
  else if levelIdx + 1 < levelCount then
    match node.page with
    | .internal p => checkSeparators node levelIdx p.slots node.children
    | .leaf _ => .error (.assertionError "isinstance(page, InternalPage)")
  else .ok ()

/-- The checks of the nodes of a level. -/
def checkNodes (m : MetaPage) (levelCount levelIdx : ℕ) : List BPlusTreeNode → Except Err Unit
  | [] => .ok ()
  | node :: nodes => do
      checkNode m levelCount levelIdx node
      checkNodes m levelCount levelIdx nodes

/-- The checks of the levels from `levelIdx` on. -/
def checkLevels (m : MetaPage) (levelCount : ℕ) :
    (levelIdx : ℕ) → List (List BPlusTreeNode) → Except Err Unit
  | _, [] => .ok ()
  | levelIdx, level :: levels => do
      checkNodes m levelCount levelIdx level
      checkLevels m levelCount (levelIdx + 1) levels

/-- The checks of a leaf and the one to its right. -/
def checkSiblings (levelIdx : ℕ) (node : BPlusTreeNode) (page : LeafPage) :
    List BPlusTreeNode → Except Err Unit
  | [] => .ok ()
  | next :: _ => do
      if page.rightSiblingPageId ≠ next.pageId then
        raiseInvariantError "Inconsistent sibling pointers" node levelIdx
      let last ← lastKey (.leaf page)
      let first ← firstKey next.page
      if first < last then raiseInvariantError "Siblings not ordered by key" node levelIdx

/-- Leaf sibling pointers form a complete forward chain in key order with no cycles.  The
result are the pages in `seen_leaf_pages`. -/
def checkLeafChain (levelIdx : ℕ) : (seen : List ℕ) → List BPlusTreeNode → Except Err (List ℕ)
  | seen, [] => .ok seen
  | seen, node :: nodes =>
      match node.page with
      | .internal _ => .error (.assertionError "isinstance(leaf_node.page, LeafPage)")
      | .leaf page =>
          if node.pageId ∈ seen then raiseInvariantError "Leaf node cycle" node levelIdx
          else do
            checkSiblings levelIdx node page nodes
            checkLeafChain levelIdx (node.pageId :: seen) nodes

/-- The checks of `assert_tree_invariants` on the levels of the tree. -/
def checkTree (m : MetaPage) (levels : List (List BPlusTreeNode)) : Except Err Unit := do
  checkLevels m levels.length 0 levels
  let leafNodes := levels.getLast?.getD []
  let seen ← checkLeafChain (levels.length - 1) [] leafNodes
  if seen.length ≠ leafNodes.length then
    throw (.assertionError "Not all nodes are linked by sibling pointers")

/-- `assert_tree_invariants`. -/
def assertTreeInvariants (fuel : ℕ) : Eng Unit := do
  let m ← Pager.getMeta
  let levels ← bfsWalkTree fuel
  codec (checkTree m levels)

end BPTreeDB.Debug
