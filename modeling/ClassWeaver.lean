import ClassWeaver.Bytes.Writer
import ClassWeaver.Main
import ClassWeaver.Proofs.Generator.Locals
import ClassWeaver.Proofs.Listing.Editing
import ClassWeaver.Proofs.Transform.Accounting
import ClassWeaver.Proofs.Listing.Splicing
import ClassWeaver.Proofs.Stack.Blocks
import ClassWeaver.Proofs.Stack.Anchor
import ClassWeaver.Proofs.Enhance.Removing
import ClassWeaver.Proofs.Renaming.Heights
import ClassWeaver.Proofs.Renaming.Enhance
import ClassWeaver.Proofs.Renaming.Generator
import ClassWeaver.Proofs.Renaming.Code
import ClassWeaver.Proofs.Renaming.Weaving
import ClassWeaver.Proofs.Renaming.Transform
import ClassWeaver.Proofs.Codec.Delimited
import ClassWeaver.Proofs.Generator.Fields
import ClassWeaver.Proofs.Region
import ClassWeaver.Proofs.Resume
import ClassWeaver.Proofs.Enhance.Failures
import ClassWeaver.Proofs.Generator.Failures
import ClassWeaver.Proofs.Generator.Interleaving
import ClassWeaver.Proofs.Generator.Levels
import ClassWeaver.Proofs.Enhance.Choice
import ClassWeaver.Proofs.Enhance.Repeating
import ClassWeaver.Proofs.Codec.Surviving
import ClassWeaver.Proofs.Codec.Branches
import ClassWeaver.Proofs.Descriptor
import ClassWeaver.Proofs.Codec.LabelTable
import ClassWeaver.Proofs.Codec.Truncation
import ClassWeaver.Proofs.Codec.Misfits
