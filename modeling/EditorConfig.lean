import EditorConfig.FileSystem.Memory
import EditorConfig.Main
import EditorConfig.Proofs.OrderedMap
import EditorConfig.Proofs.Regex.Language
import EditorConfig.Proofs.Regex.Reading
import EditorConfig.Proofs.Glob.Reading
import EditorConfig.Proofs.Glob.Anchor
import EditorConfig.Proofs.Glob.Inside
import EditorConfig.Proofs.Glob.Pieces
import EditorConfig.Proofs.Glob.Tree
import EditorConfig.Proofs.Glob.TermLanguage
import EditorConfig.Proofs.Source.Visits
import EditorConfig.Proofs.Source.Assignments
import EditorConfig.Proofs.Source.Accepted
import EditorConfig.Proofs.Cascade.FlatPass
import EditorConfig.Proofs.Cascade.Failures
import EditorConfig.Proofs.Cascade.Locality
import EditorConfig.Proofs.Source.Header
import EditorConfig.Proofs.Text.Line
import EditorConfig.Proofs.Source.Written
import EditorConfig.Proofs.Source.Grammar
import EditorConfig.Proofs.Source.Reports
import EditorConfig.Proofs.Cascade.Order
import EditorConfig.Proofs.Source.Vetoes
import EditorConfig.Proofs.Cascade.Deletion
import EditorConfig.Proofs.Cascade.Disk
import EditorConfig.Proofs.Glob.Numbered
import EditorConfig.Proofs.Glob.Ranges
import EditorConfig.Proofs.Glob.Groups
import EditorConfig.Proofs.Glob.AnyDepth
import EditorConfig.Proofs.Glob.Alternatives
import EditorConfig.Proofs.Glob.Unbalanced
import EditorConfig.Proofs.Source.Values
import EditorConfig.Proofs.Source.Joined
import EditorConfig.Proofs.Source.Offers
import EditorConfig.Proofs.Cascade.Changes
import EditorConfig.Proofs.Properties
import EditorConfig.Proofs.Cascade.Stops
import EditorConfig.Proofs.Path.Canonical
import EditorConfig.Proofs.Settings.Override
import EditorConfig.Proofs.Settings.Loaded
import EditorConfig.Proofs.Command.ReadBack
import EditorConfig.Proofs.Command.Several
import EditorConfig.Proofs.Version.Order
