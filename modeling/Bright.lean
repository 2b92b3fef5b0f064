import Bright.Lib.Table
import Bright.Eosio.Chain
import Bright.Lib.Ledger
import Bright.Keephand.Contract
import Bright.Keephand.Effects
import Bright.Keephand.Ledger
import Bright.Keephand.Validity
import Bright.Keephand.Refusals
import Bright.Keephand.Conservation
import Bright.Keephand.Authority
import Bright.Keephand.History
import Bright.Keephand.Order
import Bright.Award.Contract
import Bright.Award.Effects
import Bright.Award.Registry
import Bright.Award.Metrics
import Bright.Award.Removal
import Bright.Award.Identity
import Bright.Keephand.Fees
import Bright.Keephand.Transfer
import Bright.Lib.Digits
import Bright.Name.Symbols
import Bright.Name.NameToString
import Bright.Name.NormalForm
import Bright.Snapshot.Import
import Bright.Snapshot.Records
import Bright.Lib.Rewrite
import Bright.Rename.FileSystem
import Bright.Rename.Tool
import Bright.Rename.Names
import Bright.Rename.References
import Bright.Rename.PathStrings
import Bright.Rename.Tree
import Bright.Rename.Preservation
import Bright.Keephand.Splitting
import Bright.Rename.Calls
import Bright.Lib.Resolution
import Bright.Rename.Links
import Bright.Rename.Content
import Bright.Rename.Failures
import Bright.Rename.Containment
import Bright.Rename.LinkTargets
import Bright.Snapshot.Fields
import Bright.Snapshot.Totals
import Bright.Snapshot.Escapes
import Bright.Snapshot.ItemNumbers
import Bright.Snapshot.ErrorFile
import Bright.Lib.Bytes
import Bright.Symbol.StringToSymbol
import Bright.Symbol.Decoding
import Bright.Lib.Shell
import Bright.Snapshot.CommandWords
import Bright.Lib.Quotation
import Bright.Award.Interleaving
import Bright.Fc.Base
import Bright.Fc.Base58
import Bright.Fc.Hex
import Bright.Fc.Raw
import Bright.Keys.Kinds
import Bright.Keys.Tool
import Bright.Keephand.Interleaving
import Bright.Lib.LastRow
import Bright.Lib.Worklist
import Bright.Rename.Repair
import Bright.Rename.Retry
import Bright.Snapshot.Order
import Bright.Name.Tools
import Bright.Rename.SecondRun
