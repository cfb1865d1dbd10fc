import EvenChroma.Css.StyleSheet
import EvenChroma.Logger
import EvenChroma.Proofs.CallExpansion
import EvenChroma.Proofs.ExactNumbers
import EvenChroma.Proofs.SharedFloors
import EvenChroma.Proofs.TokenNesting
import EvenChroma.Proofs.FloorAccuracy
import EvenChroma.Proofs.DeclarationValues
import EvenChroma.Proofs.SheetExpansion
import EvenChroma.Proofs.ColourNotation
import EvenChroma.Proofs.RemainingCalls
import EvenChroma.Proofs.ConcurrentTable
import EvenChroma.Proofs.Locality
import EvenChroma.Proofs.CanonicalRequest
import EvenChroma.Proofs.EmbeddedOptions
import EvenChroma.Proofs.UseHistory
import EvenChroma.Proofs.StrictReading
import EvenChroma.Proofs.SecondExpansion
import EvenChroma.Proofs.SheetTiling
import EvenChroma.Proofs.ProblemPlaces
import EvenChroma.Proofs.CommonMistakes
import EvenChroma.Proofs.IgnoredOptions
import EvenChroma.Proofs.FloorComparison
import EvenChroma.Proofs.BoundedWork
import EvenChroma.Proofs.HueDirections
import EvenChroma.Proofs.TestLimit
import EvenChroma.Proofs.LastValues
import EvenChroma.Proofs.LayerStacks
import EvenChroma.Proofs.GamutMapping
import EvenChroma.Proofs.HostReading
import EvenChroma.Proofs.NameBoundaries
import EvenChroma.Proofs.BlankExchange
import EvenChroma.Proofs.SignificantDigits
import EvenChroma.Proofs.TokenTiling
import EvenChroma.Proofs.LoggerInstallation
import EvenChroma.Proofs.NearestDouble
import EvenChroma.Proofs.NumberTokens
