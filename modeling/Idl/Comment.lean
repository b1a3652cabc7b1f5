/-
Idl/Comment.lean

Comments, and the tokens they belong to.

Only significant tokens steer the grammar.  `significant` takes the comments and the illegal
text out of a token list and hands the comments to the tokens between which they stood: the
group right behind a token, on its line, trails it, and the group that ends on the line above a
token leads it.  Every comment ends up in exactly one group of exactly one token.
-/
import Idl.Token

namespace Idl

/-! ### Comments and groups -/

/-- A comment, with its slashes. -/
structure Comment where
  slash : Pos
  text : String
  deriving DecidableEq, Repr

/-- Comments that stand together. -/
structure CommentGroup where
  comments : List Comment
  deriving DecidableEq, Repr

/-- Where the first comment starts. -/
def CommentGroup.begin (g : CommentGroup) : Pos := (g.comments.head?.map (·.slash)).getD 0

/-- The comments, one below the other. -/
def CommentGroup.text (g : CommentGroup) : String := "\n".intercalate (g.comments.map (·.text))

section Grouping

variable (lineOf : Pos → Nat)

/-- The line on which a comment ends. -/
def Comment.endLine (c : Comment) : Nat :=
  let cs := c.text.toList
  lineOf c.slash + if cs.take 2 = ['/', '*'] then cs.count '\n' else 0

/-- The line on which a group ends. -/
def CommentGroup.endLine (g : CommentGroup) : Nat :=
  (g.comments.getLast?.map (·.endLine lineOf)).getD 0

/-- How many comments of `cs` continue a group that ends on `endLine`, when each has to start at
most `gap` lines below the end of the one before it. -/
def groupLength (gap endLine : Nat) : List Comment → Nat
  | [] => 0
  | c :: cs =>
    if lineOf c.slash ≤ endLine + gap then 1 + groupLength gap (c.endLine lineOf) cs else 0

/-- Splits comments into groups, at every blank line. -/
def commentGroups : List Comment → List CommentGroup
  | [] => []
  | c :: cs =>
    let n := groupLength lineOf 1 (c.endLine lineOf) cs
    ⟨c :: cs.take n⟩ :: commentGroups (cs.drop n)
termination_by cs => cs.length
decreasing_by simp only [List.length_drop, List.length_cons]; omega

/-! ### Significant tokens -/

/-- The comments on the line `prevLine`, on which the token before them starts. -/
def sameLineComments (prevLine : Nat) : List Comment → List Comment
  | [] => []
  | c :: cs =>
    if lineOf c.slash = prevLine then c :: cs.take (groupLength lineOf 0 (c.endLine lineOf) cs)
    else []

/-- A token that counts for the grammar, with the comments before it. -/
structure SignificantToken where
  token : Token
  /-- The group that ends on the line above the token. -/
  lead : Option CommentGroup
  /-- The group that trails the token before this one. -/
  trailing : Option CommentGroup
  /-- All groups between the token before and this one. -/
  groups : List CommentGroup
  deriving DecidableEq, Repr

/-- Hands comments to the token `next` behind them, when the token before them starts on
`prevLine`.  A group on that line trails the token before, unless something other than the end
of the file follows on the line on which the group ends. -/
def attachComments (prevLine : Nat) (comments : List Comment) (next : Token) :
    SignificantToken :=
  let same := sameLineComments lineOf prevLine comments
  let rest := comments.drop same.length
  let groups := commentGroups lineOf rest
  let nextLine := lineOf next.pos
  let followingLine := match rest with
    | [] => nextLine
    | c :: _ => lineOf c.slash
  let trails := followingLine ≠ CommentGroup.endLine lineOf ⟨same⟩ ∨ (rest = [] ∧ next.kind = .eof)
  { token := next
    lead := groups.getLast?.filter fun g => g.endLine lineOf + 1 == nextLine
    trailing := if same ≠ [] ∧ trails then some ⟨same⟩ else none
    groups := if same = [] then groups else ⟨same⟩ :: groups }

/-- The significant tokens of a list.  `held` are the comments since the last significant token,
the last one first, and `prevLine` is the line of that token. -/
def significantFrom (prevLine : Nat) (held : List Comment) : List Token → List SignificantToken
  | [] => []
  | t :: ts =>
    match t.kind with
    | .illegal => significantFrom prevLine held ts
    | .comment => significantFrom prevLine (⟨t.pos, t.text⟩ :: held) ts
    | _ =>
      attachComments lineOf prevLine held.reverse t :: significantFrom (lineOf t.pos) [] ts

/-- The significant tokens of a file.  No token precedes the first one, and no line is 0. -/
def significant (ts : List Token) : List SignificantToken := significantFrom lineOf 0 [] ts

end Grouping

end Idl
