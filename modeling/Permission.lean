import Permission.CommandLine.Outcome
import Permission.Main
import Permission.Proofs.Display.Regrouping
import Permission.Proofs.Display.Sources
import Permission.Proofs.Evaluation
import Permission.Proofs.Grammar.Stepping
import Permission.Proofs.Guard.Recency
import Permission.Proofs.Lowering.Growth
import Permission.Proofs.Lowering.Origins
import Permission.Proofs.Lowering.Polarity
import Permission.Proofs.Markup.Attributes
import Permission.Proofs.Markup.Idempotence
import Permission.Proofs.Markup.Policies
import Permission.Proofs.Storage.Compiled
import Permission.Proofs.Storage.Delimited
import Permission.Proofs.Storage.Distinct
import Permission.Proofs.Storage.Plain
import Permission.Proofs.Storage.Restored
import Permission.Proofs.Storage.Script
import Permission.Proofs.Tokens.Joined
import Permission.Proofs.Tokens.Sessions
