import Fixity.Main
import Fixity.Proofs.BlamedOperator
import Fixity.Proofs.Definitions
import Fixity.Proofs.Extension
import Fixity.Proofs.FewestParentheses
import Fixity.Proofs.FirstFault
import Fixity.Proofs.JoinedTypes
import Fixity.Proofs.Language
import Fixity.Proofs.Layout
import Fixity.Proofs.LongestMatch
import Fixity.Proofs.Meaning
import Fixity.Proofs.MergedUnions
import Fixity.Proofs.MissingOperand
import Fixity.Proofs.Nesting
import Fixity.Proofs.OperatorIndex
import Fixity.Proofs.OperatorOrder
import Fixity.Proofs.PostfixOrder
import Fixity.Proofs.PrecedenceOrder
import Fixity.Proofs.PrintedTypes
import Fixity.Proofs.ReadingBack
import Fixity.Proofs.RoundTrip
import Fixity.Proofs.TokenRoles
import Fixity.Proofs.TypeLanguage
import Fixity.Proofs.ViablePrefix
import Fixity.Proofs.WantedOperands
import Fixity.Types.Inheritance
import Fixity.Proofs.Lines
import Fixity.Proofs.Positions
import Fixity.Proofs.Digraph
import Fixity.Proofs.Outline
import Fixity.Proofs.NestedLists
import Fixity.Proofs.StackDiscipline
