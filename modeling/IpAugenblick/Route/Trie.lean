/-
# The routing trie

`fib_trie.c` keeps the prefixes of a routing table in a level-compressed trie.  An internal node
looks at `bits` bits of the key from position `pos` on and has a child for each of their values;
bits in front of `pos` that all keys below share are skipped.  After every update the nodes on
the way to the root are resized: `inflate` doubles a node that is well filled, `halve` undoes
that, and a node with one child gives way to the child.

Memory may run out at any allocation.  Each of them asks `Memory` at a place of its own, so that
any pattern of failures is one.
-/

import IpAugenblick.Route.Keys
import Mathlib.Logic.Function.Basic

namespace IpAugenblick.FibTrie

universe u

variable {α : Type u}

/-- What `struct tnode` has besides the children. -/
structure TnodeHead where
  key : TKey
  pos : ℕ
  bits : ℕ
  fullChildren : ℕ
  emptyChildren : ℕ
  deriving DecidableEq, Repr

/-- `struct rt_trie_node`, with all that is below.  A leaf has its key and its list. -/
inductive Node (α : Type u) : Type u
  | null
  | leaf (key : TKey) (list : α)
  | tnode (head : TnodeHead) (child : ℕ → Node α)

structure Tnode (α : Type u) extends TnodeHead where
  child : ℕ → Node α

/-- A `struct tnode *` as a `struct rt_trie_node *`. -/
def Tnode.node (tn : Tnode α) : Node α := .tnode tn.toTnodeHead tn.child

def Node.isNull : Node α → Bool
  | .null => true
  | _ => false

def Node.key : Node α → TKey
  | .null => 0
  | .leaf key _ => key
  | .tnode head _ => head.key

/-- The keys and lists of the leaves, from left to right. -/
def Node.leaves : Node α → List (TKey × α)
  | .null => []
  | .leaf key list => [(key, list)]
  | .tnode head child => (List.range (2 ^ head.bits)).flatMap fun i => (child i).leaves

/-- Whether the allocator has memory for the request made at a place of the computation: the
calls and the rounds of loops that lead there. -/
abbrev Memory := List ℕ → Bool

/-- The requests made by a call at a place. -/
def Memory.within (mem : Memory) (place : ℕ) : Memory := fun rest => mem (place :: rest)

def TnodeHead.childLength (h : TnodeHead) : ℕ := 2 ^ h.bits

/-- `tnode_new`, when there is memory. -/
def tnodeNew (key : TKey) (pos bits : ℕ) : Tnode α where
  key := key
  pos := pos
  bits := bits
  fullChildren := 0
  emptyChildren := 2 ^ bits
  child _ := .null

def TnodeHead.tnodeFull (tn : TnodeHead) : Node α → Bool
  | .tnode n _ => n.pos == tn.pos + tn.bits
  | _ => false

/-- `tnode_put_child_reorg`, where `wasfull` is known. -/
def Tnode.putChildReorg (tn : Tnode α) (i : ℕ) (n : Node α) (wasfull : Bool) : Tnode α where
  key := tn.key
  pos := tn.pos
  bits := tn.bits
  emptyChildren :=
    if n.isNull && !(tn.child i).isNull then tn.emptyChildren + 1
    else if !n.isNull && (tn.child i).isNull then tn.emptyChildren - 1
    else tn.emptyChildren
  fullChildren :=
    if wasfull && !tn.tnodeFull n then tn.fullChildren - 1
    else if !wasfull && tn.tnodeFull n then tn.fullChildren + 1
    else tn.fullChildren
  child := Function.update tn.child i n

def Tnode.putChild (tn : Tnode α) (i : ℕ) (n : Node α) : Tnode α :=
  tn.putChildReorg i n (tn.tnodeFull (tn.child i))

/-- The loop that moves the children from `offset` on to another node. -/
def Tnode.putChildren (tn : Tnode α) (child : ℕ → Node α) (offset : ℕ) : ℕ → Tnode α
  | 0 => tn
  | j + 1 => (tn.putChildren child offset j).putChild j (child (j + offset))

/-- The first loop of `inflate`, up to child `i`: a node for each half of a child that is to be
cut in two. -/
def inflatePrealloc (old : Tnode α) (mem : Memory) (tn : Tnode α) : ℕ → Option (Tnode α)
  | 0 => some tn
  | i + 1 =>
      (inflatePrealloc old mem tn i).bind fun tn =>
        match old.child i with
        | .tnode inode _ =>
            if inode.pos = old.pos + old.bits ∧ 1 < inode.bits then
              let m := (~~~(0 : TKey) <<< 31) >>> inode.pos
              if mem [2 * i] && mem [2 * i + 1] then
                some ((tn.putChild (2 * i)
                    (tnodeNew (inode.key &&& ~~~m) (inode.pos + 1) (inode.bits - 1)).node).putChild
                  (2 * i + 1) (tnodeNew (inode.key ||| m) (inode.pos + 1) (inode.bits - 1)).node)
              else none
            else some tn
        | _ => some tn

/-- The second loop of `inflate` at child `i`. -/
def inflateChild (resize : Tnode α → Memory → Node α) (old : Tnode α) (mem : Memory) (i : ℕ)
    (tn : Tnode α) : Tnode α :=
  match old.child i with
  | .null => tn
  | .leaf key list =>
      tn.putChild (tkeyExtractBits key old.pos (old.bits + 1)).toNat (.leaf key list)
  | .tnode inode child =>
      if inode.pos > tn.pos + tn.bits - 1 then
        -- an internal node with skipped bits
        tn.putChild (tkeyExtractBits inode.key old.pos (old.bits + 1)).toNat (.tnode inode child)
      else if inode.bits = 1 then
        (tn.putChild (2 * i) (child 0)).putChild (2 * i + 1) (child 1)
      else
        match tn.child (2 * i), tn.child (2 * i + 1) with
        | .tnode left cleft, .tnode right cright =>
            let tn := (tn.putChild (2 * i) .null).putChild (2 * i + 1) .null
            let size := left.childLength
            let left := (Tnode.mk left cleft).putChildren child 0 size
            let right := (Tnode.mk right cright).putChildren child size size
            (tn.putChild (2 * i) (resize left (mem.within (2 * i)))).putChild (2 * i + 1)
              (resize right (mem.within (2 * i + 1)))
        -- BUG_ON(!left), BUG_ON(!right)
        | _, _ => tn

/-- The second loop of `inflate`, up to child `i`. -/
def inflateChildren (resize : Tnode α → Memory → Node α) (old : Tnode α) (mem : Memory)
    (tn : Tnode α) : ℕ → Tnode α
  | 0 => tn
  | i + 1 => inflateChild resize old mem i (inflateChildren resize old mem tn i)

/-- `inflate`; `none` is ENOMEM. -/
def inflate (resize : Tnode α → Memory → Node α) (old : Tnode α) (mem : Memory) :
    Option (Tnode α) :=
  if mem [0] then
    (inflatePrealloc old (mem.within 1) (tnodeNew old.key old.pos (old.bits + 1))
      old.childLength).map fun tn =>
        inflateChildren resize old (mem.within 2) tn old.childLength
  else none

/-- The first loop of `halve`, up to pair `k`: a node for two children that are both there. -/
def halvePrealloc (old : Tnode α) (mem : Memory) (tn : Tnode α) : ℕ → Option (Tnode α)
  | 0 => some tn
  | k + 1 =>
      (halvePrealloc old mem tn k).bind fun tn =>
        if !(old.child (2 * k)).isNull && !(old.child (2 * k + 1)).isNull then
          if mem [k] then
            some (tn.putChild k (tnodeNew (old.child (2 * k)).key (tn.pos + tn.bits) 1).node)
          else none
        else some tn

/-- The second loop of `halve` at pair `k`. -/
def halvePair (resize : Tnode α → Memory → Node α) (old : Tnode α) (mem : Memory) (k : ℕ)
    (tn : Tnode α) : Tnode α :=
  let left := old.child (2 * k)
  let right := old.child (2 * k + 1)
  if left.isNull then
    if right.isNull then tn else tn.putChild k right
  else if right.isNull then tn.putChild k left
  else
    match tn.child k with
    | .tnode newBinNode child =>
        let newBinNode := ((Tnode.mk newBinNode child).putChild 0 left).putChild 1 right
        (tn.putChild k .null).putChild k (resize newBinNode (mem.within k))
    | _ => tn

/-- The second loop of `halve`, up to pair `k`. -/
def halvePairs (resize : Tnode α → Memory → Node α) (old : Tnode α) (mem : Memory)
    (tn : Tnode α) : ℕ → Tnode α
  | 0 => tn
  | k + 1 => halvePair resize old mem k (halvePairs resize old mem tn k)

/-- `halve`; `none` is ENOMEM. -/
def halve (resize : Tnode α → Memory → Node α) (old : Tnode α) (mem : Memory) :
    Option (Tnode α) :=
  if mem [0] then
    (halvePrealloc old (mem.within 1) (tnodeNew old.key old.pos (old.bits - 1))
      (old.childLength / 2)).map fun tn =>
        halvePairs resize old (mem.within 2) tn (old.childLength / 2)
  else none

def maxWork : ℕ := 10

/-- The fill factor at which `resize` doubles a node, in percent; the products are unsigned. -/
def TnodeHead.fillsUp (tn : TnodeHead) (isRoot : Bool) : Bool :=
  (50 * (tn.fullChildren + tn.childLength - tn.emptyChildren)) % 2 ^ 32 ≥
    ((if isRoot then 30 else 50) * tn.childLength) % 2 ^ 32

/-- The fill factor below which `resize` halves a node. -/
def TnodeHead.isSparse (tn : TnodeHead) (isRoot : Bool) : Bool :=
  (100 * (tn.childLength - tn.emptyChildren)) % 2 ^ 32 <
    ((if isRoot then 15 else 25) * tn.childLength) % 2 ^ 32

/-- The first loop of `resize`, with what is left of `max_work`. -/
def inflateWhile (resize : Tnode α → Memory → Node α) (isRoot : Bool) (mem : Memory) :
    ℕ → Tnode α → Tnode α × ℤ
  | 0, tn => if 0 < tn.fullChildren then (tn, -1) else (tn, 0)
  | work + 1, tn =>
      if 0 < tn.fullChildren then
        if tn.fillsUp isRoot then
          match inflate resize tn (mem.within work) with
          | some tn => inflateWhile resize isRoot mem work tn
          | none => (tn, work)
        else (tn, work)
      else (tn, work + 1)

/-- The second loop of `resize`. -/
def halveWhile (resize : Tnode α → Memory → Node α) (isRoot : Bool) (mem : Memory) :
    ℕ → Tnode α → Tnode α
  | 0, tn => tn
  | work + 1, tn =>
      if 1 < tn.bits ∧ tn.isSparse isRoot then
        match halve resize tn (mem.within work) with
        | some tn => halveWhile resize isRoot mem work tn
        | none => tn
      else tn

/-- The loop at `one_child`: the first child that is there. -/
def Tnode.oneChild (tn : Tnode α) : Node α :=
  (((List.range tn.childLength).map tn.child).find? fun n => !n.isNull).getD tn.node

/-- `resize`.  The nodes that it resizes on its way look at later bits, so that `fuel` bounds how
deep this goes. -/
def resize : ℕ → Bool → Tnode α → Memory → Node α
  | 0, _, tn, _ => tn.node
  | fuel + 1, isRoot, tn, mem =>
      if tn.emptyChildren = tn.childLength then .null
      else if tn.emptyChildren = tn.childLength - 1 then tn.oneChild
      else
        let (tn, work) := inflateWhile (resize fuel false) isRoot (mem.within 0) maxWork tn
        -- at least one inflate is run
        if work ≠ maxWork then tn.node
        else
          let tn := halveWhile (resize fuel false) isRoot (mem.within 1) maxWork tn
          if tn.emptyChildren = tn.childLength - 1 then tn.oneChild else tn.node

/-- The loop of `fib_find_node` and of `fib_insert_node`: the node where it ends, and the nodes
above it, the parent first. -/
def walk (key : TKey) : Node α → ℕ → List (Tnode α) → List (Tnode α) × Node α
  | .null, _, up => (up, .null)
  | .leaf k list, _, up => (up, .leaf k list)
  | .tnode tn child, pos, up =>
      if tkeySubEquals tn.key pos (tn.pos - pos) key then
        walk key (child (tkeyExtractBits key tn.pos tn.bits).toNat) (tn.pos + tn.bits)
          (⟨tn, child⟩ :: up)
      else (up, .tnode tn child)

def fibFindNode (t : Node α) (key : TKey) : Option α :=
  match (walk key t 0 []).2 with
  | .leaf k list => if key = k then some list else none
  | _ => none

/-- The trie with another node in the place that `walk` has found. -/
def plug (key : TKey) : List (Tnode α) → Node α → Node α
  | [], n => n
  | tp :: up, n =>
      plug key up (.tnode tp.toTnodeHead
        (Function.update tp.child (tkeyExtractBits key tp.pos tp.bits).toNat n))

/-- `trie_rebalance`, for a node and the nodes above it. -/
def trieRebalance (mem : Memory) (key : TKey) : Tnode α → List (Tnode α) → Node α
  | tn, [] => resize 32 true tn (mem.within 0)
  | tn, tp :: up =>
      let cindex := (tkeyExtractBits key tp.pos tp.bits).toNat
      let wasfull := tp.tnodeFull (tp.child cindex)
      let n := resize 32 false tn (mem.within (up.length + 1))
      trieRebalance mem key (tp.putChildReorg cindex n wasfull) up

/-- `tp ? tp->pos + tp->bits : 0`: the position behind the bits that were looked at. -/
def behind : List (Tnode α) → ℕ
  | [] => 0
  | tp :: _ => tp.pos + tp.bits

/-- The node that is put above a new leaf and what was in its place. -/
def newTnode (key : TKey) (list : α) (up : List (Tnode α)) (n : Node α) : Tnode α :=
  let (nkey, newpos) :=
    if n.isNull then (key, 0) else (n.key, tkeyMismatch key (behind up) n.key)
  let missbit := (tkeyExtractBits key newpos 1).toNat
  ((tnodeNew nkey newpos 1).putChild missbit (.leaf key list)).putChild (1 - missbit) n

/-- What `fib_insert_node` does with a new leaf, where its walk has ended; `none` when there is no
memory for a node above the leaf. -/
def insertLeaf (mem : Memory) (key : TKey) (list : α) : List (Tnode α) → Node α → Option (Node α)
  | tp :: up, .null =>
      let cindex := (tkeyExtractBits key tp.pos tp.bits).toNat
      some (trieRebalance (mem.within 1) tp.key (tp.putChild cindex (.leaf key list)) up)
  | [], n =>
      let tn := newTnode key list [] n
      if mem [0] then some (trieRebalance (mem.within 1) tn.key tn []) else none
  | tp :: up, n =>
      let tn := newTnode key list (tp :: up) n
      let cindex := (tkeyExtractBits key tp.pos tp.bits).toNat
      if mem [0] then
        some (trieRebalance (mem.within 1) tp.key (tp.putChild cindex tn.node) up)
      else none

/-- `trie_leaf_remove`, for the leaf with a key. -/
def trieLeafRemove (mem : Memory) (t : Node α) (key : TKey) : Node α :=
  match (walk key t 0 []).1 with
  | [] => .null
  | tp :: up =>
      let cindex := (tkeyExtractBits key tp.pos tp.bits).toNat
      trieRebalance mem tp.key (tp.putChild cindex .null) up

end IpAugenblick.FibTrie
