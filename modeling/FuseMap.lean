import FuseMap.Main
import FuseMap.Proofs.Exchange
import FuseMap.Proofs.ValidTables
import FuseMap.Proofs.Offers
import FuseMap.Proofs.Unreported
import FuseMap.Proofs.Effects
import FuseMap.Proofs.Runs
import FuseMap.Proofs.Recognition
import FuseMap.Proofs.Renaming
import FuseMap.Proofs.Totality
import FuseMap.Proofs.ExactLayout
import FuseMap.Proofs.FirstFault
import FuseMap.Proofs.PlacementOrder
import FuseMap.Proofs.Noninterference
import FuseMap.Proofs.FunctionTables
import FuseMap.Proofs.TableNotations
import FuseMap.Proofs.FirstOffender
import FuseMap.Proofs.Partition
import FuseMap.Proofs.Listing
import FuseMap.Proofs.TextLayout
import FuseMap.Proofs.FuseWeights
import FuseMap.Proofs.TermDigits
