import Criteria.Settings.Reader
import Criteria.Proofs.Evaluation
import Criteria.Proofs.Nesting
import Criteria.Proofs.Rule.Alternation
import Criteria.Proofs.Store.ReadBack
import Criteria.Proofs.Store.Requests
import Criteria.Proofs.Engine.Names
import Criteria.Proofs.Engine.Edits
import Criteria.Proofs.Engine.Listing
import Criteria.Proofs.Condition.Leftmost
import Criteria.Proofs.Token.Split
import Criteria.Proofs.Rule.Limits
import Criteria.Proofs.Rule.Parts
import Criteria.Proofs.Rule.Precheck
import Criteria.Proofs.Tree.Precedence
import Criteria.Proofs.Rule.Group
import Criteria.Proofs.Rule.Joined
import Criteria.Proofs.Json.Fields
import Criteria.Proofs.Record
import Criteria.Proofs.Documented
import Criteria.Proofs.Engine.Evaluation
import Criteria.Proofs.Rule.Faults
import Criteria.Proofs.Tree.Stages
import Criteria.Proofs.Evaluation.Blame
import Criteria.Proofs.Evaluation.Joined
import Criteria.Proofs.Condition.Numeral
import Criteria.Proofs.Evaluation.Records
import Criteria.Proofs.Tree.Assignment
import Criteria.Proofs.Json.Numbers
import Criteria.Proofs.Document.Levels
import Criteria.Proofs.Store.Confined
import Criteria.Proofs.Store.Foreign
import Criteria.Proofs.Tree.Visits
