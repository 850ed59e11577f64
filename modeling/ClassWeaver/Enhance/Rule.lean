import ClassWeaver.Resume

/-!
# Enhancement rules

A rule replaces the instructions it matches. `Chain.run` scans a listing once from head to
tail and applies the first matching rule of a chain to each node. A rule answers the node
behind which the scan goes on; no node means the head, which lets a rule remove the first
node and still visit every other one.

Nothing keeps a rule from sending the scan back over what it has put in, so a scan need not
come to an end. The result of one that does not, in any time that one could wait
(`Chain.patience`), is undefined.
-/

namespace ClassWeaver

/-- The nodes that backward scans must not cross. -/
abbrev Boundary := Ref → Bool

/-- What a rule may look at besides the listing. -/
structure Context where
  boundary : Boundary := fun _ => false
  /-- Name of the class. -/
  owner : Text := []
  /-- Name and descriptor of the method. -/
  method : Text := []
  /-- The resume states and captured slots of the method. -/
  states : States := {}

/-- A rule: which instructions it matches, and what it makes of a node that holds one. The
answer is the listing afterwards, and the node behind which to go on or a failure. -/
structure Rule where
  applies : Insn → Bool
  replace : Context → Listing → Ref → Listing × Outcome (Option Ref)

/-- The rule that removes what it matches and goes on from the node in front. -/
def Rule.removing (p : Insn → Bool) : Rule where
  applies := p
  replace _ l r :=
    let resume := l.prev (some r)
    (l.remove r, .ok resume)

/-- Rules in order of precedence. -/
abbrev Chain := List Rule

namespace Chain

/-- The failure of a rule that wants the scan to go on from a node outside the sequence. -/
def strayed (method : Text) (i : Insn) (r : Ref) : Failure :=
  (i.blame .enhance .invariant ("enhancer resumed at unlinked node " ++ Text.ofNat r)
    (some (Text.ofNat r)) none).map (Fault.inMethod method)

/-- Applies the first matching rule to a node: the listing afterwards, and the node behind
which to go on or a failure. -/
def visit (chain : Chain) (ctx : Context) (l : Listing) (r : Ref) :
    Listing × Except Failure (Option Ref) :=
  match l.insn? r with
  | none => (l, Outcome.undefined)
  | some i =>
    match chain.find? (·.applies i) with
    | none => (l, .ok (some r))
    | some rule =>
      match rule.replace ctx l r with
      | (l, .error e) => (l, .error (e.map (Fault.inMethod ctx.method)))
      | (l, .ok none) => (l, .ok none)
      | (l, .ok (some resume)) =>
        if l.isLinked resume then (l, .ok (some resume))
        else (l, .error (strayed ctx.method i resume))

/-- How many visits a scan is given besides one for each node. At one every nanosecond they take
more than a century. -/
def patience : Nat := Nat.pow 2 62

/-- Scans from a node on; none if so many visits do not bring the scan to its end. -/
@[irreducible]
def scan (chain : Chain) (ctx : Context) :
    (visits : Nat) → Option Ref → Listing → Option (Listing × Except Failure Unit)
  | _, none, l => some (l, .ok ())
  | 0, some _, _ => none
  | visits + 1, some r, l =>
    match chain.visit ctx l r with
    | (l, .ok resume) => scan chain ctx visits (l.next resume) l
    | (l, .error e) => some (l, .error e)

/-- Scans a listing once. What was replaced before a failure stays replaced. -/
def run (chain : Chain) (ctx : Context) (l : Listing) : Listing × Except Failure Unit :=
  (chain.scan ctx (patience + l.length) l.first l).getD (l, Outcome.undefined)

/-- Scans the listing of a method, which a method without code does not have. -/
def runIn (chain : Chain) (ctx : Context) :
    Option Listing → Option Listing × Except Failure Unit
  | none => (none, Outcome.fail (.usage .enhance "nil instruction list"))
  | some l =>
    let (l, result) := chain.run ctx l
    (some l, result)

end Chain

end ClassWeaver
